import Lalr1.Canonical
import Lalr1.Tree
import Lalr1.Derivation

/-!
# A rule `X → X a X` makes `create_lalr1_parser` throw

`create_calculator_parser` (`parser.cpp`) builds the grammar

  `E → E + T | E - T | T`, `T → T * F | T / F | F`, `F → F ^ F | ( E ) | num`

through the `Grammar` API and hands it to `create_lalr1_parser`. The rule `F → F ^ F` makes the
grammar ambiguous (`a ^ b ^ c` has two trees), and so does every rule `X → X a X` of a
nonterminal that a derivation reaches: its table has a conflict, and `create_lalr1_parser` throws
`"Grammar has parsing conflicts"`, whatever the order in which the productions were allocated
(`self_embedding_rule_conflicts`).

The proof follows the LR(0) automaton. Every symbol of a form derived from the start symbol is
after the dot of an item of some state (`afterDot_of_derives`, carried over each derivation step
by `afterDot_of_mem_rhs`). From a state with `X` after a dot, the transitions on `X`, `a` and `X`
lead to a state holding both `X → X a X ·` and `X → X · a X` (`mem_selfEmbedding_state`), which
shifts `a` and reduces by the rule on `a`, since a terminal right after `X` in a right-hand side
is in `FOLLOW(X)` (`mem_constFollowSet_of_next`).
-/

namespace Lalr1

open Relation

/-- A terminal of the table right after a nonterminal `B` in a right-hand side is in `FOLLOW(B)`. -/
theorem Grammar.mem_constFollowSet_of_next {g : Grammar} {p : Production} (hp : p ∈ g.productions)
    {α β : List Symbol} {B b : Symbol} (h : p.rhs = α ++ B :: b :: β) (hB : B.isNonterminal = true)
    (hb : b ∈ g.symbolTable.getTerminals) : b ∈ g.constFollowSet B := by
  have hne : b.isEpsilon = false :=
    isEpsilon_eq_false_of_terminal_or_eof (.inl (List.mem_filter.mp hb).2)
  have hseq : b ∈ firstSetSeq g.constEpsilon g.constFirstSet (b :: β) := by
    have h : b ∈ addFirstOfSeq g.constEpsilon g.constFirstSet ([] ++ b :: β) [] :=
      mem_addFirstOfSeq_of_first (mem_computeFirstSets_self hb) hne _ [] [] (by simp)
    unfold firstSetSeq
    split
    · exact List.mem_insert_of_mem h
    · exact h
  have hwithin : SetsWithin g.symbolTable g.constFirstSet := computeFirstSets_within
  unfold Grammar.constFollowSet
  rw [← computeFollowSets_closed hwithin _ hp h hB]
  exact mem_followNew_of_first hseq hne

/-! ## Symbols after a dot -/

namespace LR0Automaton.Spec

variable {t : SymbolTable} {prods : List Production} {A : LR0Automaton} (hA : A.Spec t prods)
include hA

/-- From a state holding `(i, d)`, the transitions on the next symbols `α` of the right-hand side
lead to a state holding `(i, d + |α|)`. -/
theorem advance_along {i : Nat} {q : Production} (hq : prods[i]? = some q) :
    ∀ (α β : List Symbol) (d s : Nat) (items : List LR0Item), q.rhs.drop d = α ++ β →
      A.states[s]? = some items → (⟨i, d⟩ : LR0Item) ∈ items →
      ∃ (s' : Nat) (items' : List LR0Item), A.states[s']? = some items' ∧
        (⟨i, d + α.length⟩ : LR0Item) ∈ items'
  | [], _, _, s, items, _, hs, hit => ⟨s, items, hs, hit⟩
  | x :: α, β, d, s, items, hdrop, hs, hit => by
    have hx : (⟨i, d⟩ : LR0Item).nextSymbol prods = some x := by
      have h := congrArg List.head? hdrop
      rw [List.head?_drop] at h
      simpa [LR0Item.nextSymbol, rhsOf, hq] using h
    obtain ⟨j, items', -, hj, hit'⟩ := hA.advance_mem hs hit hx
    obtain ⟨s', items'', hs', hit''⟩ :=
      advance_along hq α β (d + 1) j items' (by rw [← List.tail_drop, hdrop]; rfl) hj hit'
    exact ⟨s', items'', hs', by rwa [List.length_cons, Nat.add_comm α.length, ← Nat.add_assoc]⟩

/-- Step lemma: when a nonterminal `Y` is after a dot in a state, every symbol of the right-hand
side of a production of `Y` is after a dot in some state. Closure brings in `(i, 0)`, and the
transitions along the right-hand side reach each position. -/
theorem afterDot_of_mem_rhs {s : Nat} {items : List LR0Item} (hs : A.states[s]? = some items)
    {Y : Symbol} (hY : AfterDot prods items Y) (hnt : Y.isNonterminal = true) {q : Production}
    (hq : q ∈ prods) (hlhs : q.lhs = Y) {x : Symbol} (hx : x ∈ q.rhs) :
    ∃ (s' : Nat) (items' : List LR0Item), A.states[s']? = some items' ∧ AfterDot prods items' x := by
  obtain ⟨it, hit, hnext⟩ := hY
  obtain ⟨i, hi⟩ := List.mem_iff_getElem?.mp hq
  obtain ⟨α, β, hsplit⟩ := List.append_of_mem hx
  have h0 : (⟨i, 0⟩ : LR0Item) ∈ items := hA.mem_of_closureCandidates hs hit
    (mem_closureCandidates.mpr ⟨rfl, Y, hnext, hnt, mem_productionsFor.mpr ⟨q, hi, hlhs⟩⟩)
  obtain ⟨s', items', hs', hit'⟩ := hA.advance_along hi α (x :: β) 0 s items (by simp [hsplit]) hs h0
  refine ⟨s', items', hs', _, hit', ?_⟩
  simp only [LR0Item.nextSymbol, rhsOf, hi, hsplit, Option.map_some', Option.getD_some, Nat.zero_add,
    List.getElem?_append_right (le_refl _), Nat.sub_self, List.getElem?_cons_zero]

/-- Run lemma: when production 0 is `S' → [S]`, every symbol of a form derived from `S` is after
a dot in some state. -/
theorem afterDot_of_derives {S' S : Symbol} (h0 : prods[0]? = some ⟨S', [S]⟩) {w : List Symbol}
    (hw : Derives prods [S] w) :
    ∀ x ∈ w, ∃ (s : Nat) (items : List LR0Item), A.states[s]? = some items ∧ AfterDot prods items x := by
  induction hw with
  | refl =>
    intro x hx
    obtain rfl := List.mem_singleton.mp (mem_erase.mp hx).1
    exact ⟨0, _, hA.start, _, subset_closure _ (List.mem_singleton_self _),
      by simp [LR0Item.nextSymbol, rhsOf, h0]⟩
  | tail _ step ih =>
    cases step with
    | @rewrite q u v hq hnt =>
      intro x hx
      simp only [List.mem_append] at hx
      rcases hx with (hx | hx) | hx
      · exact ih x (by simp [hx])
      · obtain ⟨s, items, hs, hY⟩ := ih q.lhs (by simp)
        exact hA.afterDot_of_mem_rhs hs hY hnt hq rfl (mem_erase.mp hx).1
      · exact ih x (by simp [hx])

/-- From a state with `X` after a dot, the transitions on `X`, `b`, `X` for a rule
`i : X → X b X` lead to a state holding `X → X b X ·` and `X → X · b X`: the state after `X b`
holds `X → X b · X` and, by closure, `X → · X b X`, and the transition on `X` advances both. -/
theorem mem_selfEmbedding_state {s : Nat} {items : List LR0Item} (hs : A.states[s]? = some items)
    {X b : Symbol} (hX : AfterDot prods items X) (hnt : X.isNonterminal = true) {i : Nat}
    (hi : prods[i]? = some ⟨X, [X, b, X]⟩) :
    ∃ (s' : Nat) (core : List LR0Item), A.states[s']? = some core ∧ (⟨i, 3⟩ : LR0Item) ∈ core ∧
      (⟨i, 1⟩ : LR0Item) ∈ core := by
  have hstart : ∀ {s items}, A.states[s]? = some items → AfterDot prods items X →
      (⟨i, 0⟩ : LR0Item) ∈ items := fun hs ⟨_, hit, hx⟩ => hA.mem_of_closureCandidates hs hit
    (mem_closureCandidates.mpr ⟨rfl, X, hx, hnt, mem_productionsFor.mpr ⟨_, hi, rfl⟩⟩)
  have hnext : ∀ d, (⟨i, d⟩ : LR0Item).nextSymbol prods = [X, b, X][d]? := fun d => by
    simp [LR0Item.nextSymbol, rhsOf, hi]
  obtain ⟨s₁, I₁, -, hs₁, h₁⟩ := hA.advance_mem hs (hstart hs hX) (hnext 0)
  obtain ⟨s₂, I₂, -, hs₂, h₂⟩ := hA.advance_mem hs₁ h₁ (hnext 1)
  obtain ⟨s₃, I₃, ht, hs₃, h₃⟩ := hA.advance_mem hs₂ h₂ (hnext 2)
  obtain ⟨s₃', I₃', ht', hs₃', h₁'⟩ :=
    hA.advance_mem hs₂ (hstart hs₂ ⟨_, h₂, hnext 2⟩) (hnext 0)
  obtain rfl := Option.some.inj (ht.symm.trans ht')
  obtain rfl := Option.some.inj (hs₃.symm.trans hs₃')
  exact ⟨s₃, I₃, hs₃, h₃, h₁'⟩

end LR0Automaton.Spec

/-! ## The conflict -/

open LALR1Generator

/-- A rule `X → X b X` of a nonterminal `X` that occurs in a form derived from the start symbol,
with `b` a terminal, makes `create_lalr1_parser` throw `"Grammar has parsing conflicts"` on a
built grammar with plain names, whatever the allocation order: the state reached on `X b X` from
a state with `X` after a dot shifts `b` and reduces by the rule on `b`. -/
theorem self_embedding_rule_conflicts {g : Grammar} {S X b : Symbol} {u v : List Symbol}
    (hb : g.Built) (hS : g.startSymbol = some S) (hn : g.symbolTable.PlainNames)
    (hp : ⟨X, [X, b, X]⟩ ∈ g.productions) (hX : X.isNonterminal = true) (hterm : b.isTerminal = true)
    (hreach : Derives g.productions [S] (u ++ X :: v)) (addr : Nat → Nat) :
    createLalr1Parser g addr = some (.error "Grammar has parsing conflicts") := by
  obtain ⟨gen, hgen, hg, hA, hshape⟩ := create_augment hb hS hn
  rw [← hg] at hA hshape
  obtain ⟨T, hT⟩ := gen.generateTable_ok addr hshape.isAugmented
  have hprods : gen.grammar.productions = ⟨g.augmentedStart S, [S]⟩ :: g.productions := by
    rw [hg, Grammar.augment_productions (hb.wf.isAugmented_eq_false hn) hS]
  obtain ⟨k, hk⟩ := List.mem_iff_getElem?.mp hp
  have hk' : gen.grammar.productions[k + 1]? = some ⟨X, [X, b, X]⟩ := by
    rw [hprods, List.getElem?_cons_succ, hk]
  obtain ⟨s, items, hs, hXs⟩ := hA.afterDot_of_derives hshape.zero
    (hreach.mono (by rw [hprods]; exact List.subset_cons_self _ _)) X (by simp)
  obtain ⟨s', core, hs', h₃, h₁⟩ := hA.mem_selfEmbedding_state hs hXs hX hk'
  have hnext : (⟨k + 1, 1⟩ : LR0Item).nextSymbol gen.grammar.productions = some b := by
    simp [LR0Item.nextSymbol, rhsOf, hk']
  obtain ⟨j, -, hj, -, -⟩ := hA.advance_mem hs' h₁ hnext
  have hbT : b ∈ gen.grammar.symbolTable.getTerminals := List.mem_filter.mpr
    ⟨(hg ▸ (Grammar.Built.augment hb).wf).rhs_mem _ (List.getElem?_mem hk') b (by simp), hterm⟩
  have hshift : gen.CellAction s' b (.shift j) := .shift hs' h₁ hnext hterm hj
  have hreduce : gen.CellAction s' b (.reduce (k + 1)) :=
    .reduce hs' h₃ hk' (by simp [LR0Item.isComplete, rhsOf, hk'])
      (hshape.looksAugmented_of_pos _ _ (Nat.succ_pos k) hk' hX)
      (Grammar.mem_constFollowSet_of_next (List.getElem?_mem hk') (α := []) rfl hX hbT)
  have hconf : T.conflicts ≠ [] := fun h =>
    Action.noConfusion ((generateTable_conflicts_eq_nil_iff hT).mp h _ _ _ _ hshift hreduce)
  have hhas : T.hasConflicts = true := by simpa [ParseTable.hasConflicts] using hconf
  simp [createLalr1Parser, hgen, hT, hhas]

/-- The grammar `create_calculator_parser` builds, in the order of its calls. -/
def calculatorGrammar : Grammar :=
  let g := (((Grammar.new.getNonterminal "E").2.getNonterminal "T").2.getNonterminal "F").2
  let g := ((((((((g.getTerminal "+" .plus).2.getTerminal "-" .minus).2.getTerminal "*" .multiply).2
    |>.getTerminal "/" .divide).2.getTerminal "^" .power).2.getTerminal "(" .lparen).2
    |>.getTerminal ")" .rparen).2.getTerminal "num" .number).2
  let E := Symbol.nonterminal "E"
  let T := Symbol.nonterminal "T"
  let F := Symbol.nonterminal "F"
  (((((((((g.addProduction E [E, .terminal "+" .plus, T])
    |>.addProduction E [E, .terminal "-" .minus, T])
    |>.addProduction E [T])
    |>.addProduction T [T, .terminal "*" .multiply, F])
    |>.addProduction T [T, .terminal "/" .divide, F])
    |>.addProduction T [F])
    |>.addProduction F [F, .terminal "^" .power, F])
    |>.addProduction F [.terminal "(" .lparen, E, .terminal ")" .rparen])
    |>.addProduction F [.terminal "num" .number]).setStartSymbol E

theorem calculatorGrammar_built : calculatorGrammar.Built :=
  .setStartSymbol (.addProduction (.addProduction (.addProduction (.addProduction (.addProduction
    (.addProduction (.addProduction (.addProduction (.addProduction
      (.getTerminal _ _ (.getTerminal _ _ (.getTerminal _ _ (.getTerminal _ _ (.getTerminal _ _
        (.getTerminal _ _ (.getTerminal _ _ (.getTerminal _ _
          (.getNonterminal _ (.getNonterminal _ (.getNonterminal _ .new)))))))))))
      (by decide) (by decide)) (by decide) (by decide)) (by decide) (by decide)) (by decide)
      (by decide)) (by decide) (by decide)) (by decide) (by decide)) (by decide) (by decide))
      (by decide) (by decide)) (by decide) (by decide)) (by decide)

/-- `create_calculator_parser` throws: `F → F ^ F`, and `E ⇒ T ⇒ F`. -/
theorem create_calculator_parser_throws :
    calculatorGrammar.Built ∧ calculatorGrammar.startSymbol = some (.nonterminal "E") ∧
      calculatorGrammar.symbolTable.PlainNames ∧
      (⟨.nonterminal "F", [.nonterminal "F", .terminal "^" .power, .nonterminal "F"]⟩ : Production) ∈
        calculatorGrammar.productions ∧
      Derives calculatorGrammar.productions [.nonterminal "E"] ([] ++ .nonterminal "F" :: []) ∧
      createLalr1Parser calculatorGrammar id = some (.error "Grammar has parsing conflicts") := by
  have hp : (⟨.nonterminal "F", [.nonterminal "F", .terminal "^" .power, .nonterminal "F"]⟩ :
      Production) ∈ calculatorGrammar.productions := by decide
  have hreach : Derives calculatorGrammar.productions [.nonterminal "E"] ([] ++ .nonterminal "F" :: []) :=
    Derives.head (p := ⟨.nonterminal "E", [.nonterminal "T"]⟩) (by decide) rfl
      (Derives.head (p := ⟨.nonterminal "T", [.nonterminal "F"]⟩) (by decide) rfl (Derives.self (by decide)))
  exact ⟨calculatorGrammar_built, rfl, by decide, hp, hreach,
    self_embedding_rule_conflicts calculatorGrammar_built rfl (by decide) hp rfl rfl hreach id⟩

end Lalr1
