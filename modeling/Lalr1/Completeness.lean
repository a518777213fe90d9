import Lalr1.Soundness

/-!
# Completeness of `parse_internal` on tables without conflicts

When `generate_table` logs no conflict, every cell holds the one action its items ask for. Then
the driver parses every sentence of the grammar: given a parse tree for the start symbol, the run
on tokens of the kinds of its leaves follows the tree, shifting each leaf and reducing each node
once its children are on the stack (`tree_runs`, by induction on the tree, with `forest_runs` for
the children of a node). The reductions are taken because `compute_follow_sets` puts the token
after every subtree into FOLLOW of its root (`headD_mem_constFollowSet`), and the goto entries
exist because the root of a tree has a non-empty FIRST set. The run ends on `Accept` in state
`δ(0, S)` on EOF.
-/

namespace Lalr1

/-! ## FOLLOW covers the tokens after a tree -/

namespace Grammar

variable {g : Grammar}

/-- When `b` stands before trees `cs` in a right-hand side of `A`, the symbol after the leaves of
`cs` (the first symbol of `v`, or `$`) is in `FOLLOW(b)`, given that the first symbol of `v` is in
`FOLLOW(A)`. -/
theorem headD_mem_constFollowSet {p : Production} (hp : p ∈ g.productions) {α : List Symbol}
    {b : Symbol} {cs : List ParseNode} (h : p.rhs = α ++ b :: cs.map ParseNode.symbol)
    (hb : b.isNonterminal = true)
    (hcs : ∀ c ∈ cs, c.IsTree g.symbolTable.getTerminals g.productions) {v : List Symbol}
    (hv : v.headD endOfInputSymbol ∈ g.constFollowSet p.lhs) :
    ((cs.flatMap ParseNode.yield).map Prod.fst ++ v).headD endOfInputSymbol ∈
      g.constFollowSet b := by
  unfold constFollowSet constFirstSet constEpsilon at hv ⊢
  rw [← computeFollowSets_closed computeFirstSets_within g.startSymbol hp h hb]
  cases hy : cs.flatMap ParseNode.yield with
  | nil =>
    have hall := ParseNode.nullable_of_forall hcs fun c hc => List.flatMap_eq_nil_iff.mp hy c hc
    exact subset_followNew (by simp [List.all_eq_true.mpr hall]) hv
  | cons y ys =>
    obtain ⟨a, val⟩ := y
    obtain ⟨l₁, c, l₂, rfl, hl₁, r, hc⟩ := exists_first_of_flatMap_eq_cons _ hy
    have hterm := ParseNode.isTerminal_of_mem_yield c (by rw [hc]; exact List.mem_cons_self _ _)
    have hne : a.isEpsilon = false := by
      simp [Symbol.isEpsilon, (Symbol.isTerminal_iff a).mp hterm]
    have hseq : a ∈ addFirstOfSeq (computeEpsilonDerivers g.productions)
        (computeFirstSets g.symbolTable g.productions (computeEpsilonDerivers g.productions))
        ((l₁ ++ c :: l₂).map ParseNode.symbol) [] := by
      rw [List.map_append, List.map_cons]
      exact mem_addFirstOfSeq_of_first ((hcs c (by simp)).mem_first hc) hne _ _ []
        (ParseNode.nullable_of_forall (fun c' hc' => hcs c' (by simp [hc'])) hl₁)
    simp only [List.map_cons, List.cons_append, List.headD_cons]
    refine mem_followNew_of_first ?_ hne
    simp only [firstSetSeq]
    split
    · exact List.mem_insert_of_mem hseq
    · exact hseq

/-- `$` is in FOLLOW of the symbol `S` of production 0, `S' → [S]`, when `S'` is the start
symbol. -/
theorem endOfInput_mem_constFollowSet {S' S : Symbol} (h0 : g.productions[0]? = some ⟨S', [S]⟩)
    (hstart : g.startSymbol = some S') (hS : S.isNonterminal = true) :
    endOfInputSymbol ∈ g.constFollowSet S := by
  unfold constFollowSet constFirstSet constEpsilon
  rw [← computeFollowSets_closed computeFirstSets_within g.startSymbol (List.getElem?_mem h0)
    (show [S] = [] ++ S :: [] from rfl) hS]
  refine subset_followNew (by simp) ?_
  rw [hstart]
  exact mem_computeFollowSets_start

end Grammar

/-! ## Steps of the loop -/

namespace LALR1Parser

/-- The unread tokens have the kinds of the symbols `v`, and the lexer ends in EOF tokens. -/
structure Reading (v : List Symbol) (c : Config) : Prop where
  eof : c.lexer.eof.isEof = true
  pending : ∀ tok ∈ c.lexer.pending, tok.isEof = false
  kinds : List.Forall₂ (fun (a : Symbol) (tok : Token) => tok.type = a.tokenType) v (unread c)

theorem unread_eq_cons {c : Config} {tok : Token} {rest : List Token}
    (h : unread c = tok :: rest) : c.token.isEof = false ∧ tok = c.token ∧ rest = c.lexer.pending := by
  unfold unread at h
  split at h
  · cases h
  · rename_i hne
    obtain ⟨rfl, rfl⟩ := List.cons.inj h
    exact ⟨Bool.eq_false_iff.mpr hne, rfl, rfl⟩

variable {g : Grammar} {t : ParseTable} {c : Config}

/-- With terminals of pairwise distinct kinds, `find_terminal_for_token` finds the terminal the
unread tokens start with, or `$` when none is left. -/
theorem terminalFor_of_reading
    (hkind : ∀ a ∈ g.symbolTable.getTerminals, ∀ b ∈ g.symbolTable.getTerminals,
      a.tokenType = b.tokenType → a = b)
    {v : List Symbol} (hr : Reading v c) (hv : ∀ a ∈ v, a ∈ g.symbolTable.getTerminals) :
    terminalFor g c.token = some (v.headD endOfInputSymbol) := by
  cases v with
  | nil =>
    have hu := List.forall₂_nil_left_iff.mp hr.kinds
    have heof : c.token.isEof = true := by
      unfold unread at hu
      split at hu
      · assumption
      · cases hu
    simp [terminalFor, heof]
  | cons a v =>
    obtain ⟨tok, rest, htype, -, hu⟩ := List.forall₂_cons_left_iff.mp hr.kinds
    obtain ⟨hne, rfl, -⟩ := unread_eq_cons hu
    have ha := hv a (List.mem_cons_self a v)
    have hpa : (a.isTerminal && a.tokenType == c.token.type) = true := by
      simp [(List.mem_filter.mp ha).2, htype]
    obtain ⟨b, hb⟩ : ∃ b, g.symbolTable.getTerminals.find?
        (fun s => s.isTerminal && s.tokenType == c.token.type) = some b :=
      Option.isSome_iff_exists.mp (List.find?_isSome.mpr ⟨a, ha, hpa⟩)
    have hpb := List.find?_some hb
    simp only [Bool.and_eq_true, beq_iff_eq] at hpb
    rw [terminalFor, if_neg (by simp [hne]), hb,
      hkind b (List.mem_of_find?_eq_some hb) a ha (hpb.2.trans htype)]
    rfl

theorem step_shift {top : StackElement} {rest : List StackElement} {a : Symbol} {j : Nat}
    (hstk : c.stack = top :: rest) (hterm : terminalFor g c.token = some a)
    (hact : t.getAction top.state a = .shift j) :
    Step g t c ⟨⟨j, some a, some (.mk a c.token.value [])⟩ :: c.stack, c.lexer.next.1,
      c.lexer.next.2⟩ := by
  simp [Step, parseStep, hstk, hterm, hact]

theorem step_reduce {top : StackElement} {rest : List StackElement} {a : Symbol} {i : Nat}
    {p : Production} {c' : Config} (hstk : c.stack = top :: rest)
    (hterm : terminalFor g c.token = some a) (hact : t.getAction top.state a = .reduce i)
    (hp : g.productions[i]? = some p) (hr : reduce t c p = .next c') : Step g t c c' := by
  simp [Step, parseStep, hstk, hterm, hact, hp, hr]

/-- Run lemma: a run that reaches a configuration whose step returns gives that result with
enough fuel. -/
theorem parseLoop_of_reach {c' : Config} {r : ParseResult}
    (h : Relation.ReflTransGen (Step g t) c c') (hd : parseStep g t c' = some (.done r)) :
    ∃ n, ∀ fuel, n ≤ fuel → parseLoop g t fuel c = some r := by
  induction h using Relation.ReflTransGen.head_induction_on with
  | refl =>
    refine ⟨1, fun fuel hf => ?_⟩
    obtain ⟨k, rfl⟩ : ∃ k, fuel = k + 1 := ⟨fuel - 1, by omega⟩
    simp [parseLoop, hd]
  | head hs _ ih =>
    obtain ⟨n, hn⟩ := ih
    refine ⟨n + 1, fun fuel hf => ?_⟩
    obtain ⟨k, rfl⟩ : ∃ k, fuel = k + 1 := ⟨fuel - 1, by omega⟩
    simp only [parseLoop, show parseStep g t _ = _ from hs]
    exact hn k (by omega)

/-! ## The run on a tree -/

/-- The run on the leaves of a tree: from a configuration whose top state has the tree's root
after a dot, with the unread tokens of the kinds of the leaves and then of `v`, and with the first
symbol of `v` in FOLLOW of the root, the loop reads the leaves and pushes one frame for the root,
on the transition from the top state. -/
def TreeRuns (gen : LALR1Generator) (T : ParseTable) (tr : ParseNode) : Prop :=
  ∀ (c : Config) (top : StackElement) (rest : List StackElement) (items : List LR0Item)
    (v : List Symbol), c.stack = top :: rest → gen.lr0Automaton.states[top.state]? = some items →
    (∃ it ∈ items, it.nextSymbol gen.grammar.productions = some tr.symbol) →
    Reading (tr.yield.map Prod.fst ++ v) c → (∀ a ∈ v, a ∈ gen.grammar.symbolTable.getTerminals) →
    (tr.symbol.isNonterminal = true →
      v.headD endOfInputSymbol ∈ gen.grammar.constFollowSet tr.symbol) →
    ∃ c' j node, Relation.ReflTransGen (Step gen.grammar T) c c' ∧
      gen.lr0Automaton.getTransition top.state tr.symbol = some j ∧
      c'.stack = ⟨j, some tr.symbol, some node⟩ :: c.stack ∧ Reading v c'

open LALR1Generator

section

variable {gen : LALR1Generator} {addr : Nat → Nat} {T : ParseTable} {S : Symbol}
  (hT : gen.generateTable addr = .ok T) (hconf : T.conflicts = [])
  (hA : gen.lr0Automaton.Spec gen.grammar.symbolTable gen.grammar.productions)
  (hshape : gen.grammar.AugmentedShape S)
  (hkind : ∀ a ∈ gen.grammar.symbolTable.getTerminals, ∀ b ∈ gen.grammar.symbolTable.getTerminals,
    a.tokenType = b.tokenType → a = b)

/-- The children of a node, from the item `(i, d)` of the top state: the loop runs each child in
turn, leaving one frame per child and a top state holding `(i, d + k)`. -/
theorem forest_runs (hA : gen.lr0Automaton.Spec gen.grammar.symbolTable gen.grammar.productions)
    {i : Nat} {p : Production} (hp : gen.grammar.productions[i]? = some p) :
    ∀ (cs : List ParseNode) (d : Nat) (c : Config) (top : StackElement)
      (rest : List StackElement) (items : List LR0Item) (v : List Symbol),
    (∀ ch ∈ cs, ch.IsTree gen.grammar.symbolTable.getTerminals gen.grammar.productions.tail ∧
      TreeRuns gen T ch) →
    p.rhs.drop d = cs.map ParseNode.symbol → c.stack = top :: rest →
    gen.lr0Automaton.states[top.state]? = some items → (⟨i, d⟩ : LR0Item) ∈ items →
    Reading ((cs.flatMap ParseNode.yield).map Prod.fst ++ v) c →
    (∀ a ∈ v, a ∈ gen.grammar.symbolTable.getTerminals) →
    v.headD endOfInputSymbol ∈ gen.grammar.constFollowSet p.lhs →
    ∃ c' frames top' items', Relation.ReflTransGen (Step gen.grammar T) c c' ∧
      c'.stack = frames ++ c.stack ∧ frames.length = cs.length ∧ c'.stack.head? = some top' ∧
      gen.lr0Automaton.states[top'.state]? = some items' ∧
      (⟨i, d + cs.length⟩ : LR0Item) ∈ items' ∧ Reading v c'
  | [], d, c, top, rest, items, v, _, _, hstk, hs, hit, hr, _, _ =>
    ⟨c, [], top, items, .refl, rfl, rfl, by simp [hstk], hs, hit, by simpa using hr⟩
  | ch :: cs, d, c, top, rest, items, v, hcs, hdrop, hstk, hs, hit, hr, hv, hla => by
    obtain ⟨⟨htree, hruns⟩, hcs'⟩ := List.forall_mem_cons.mp hcs
    have hlift : ∀ c ∈ cs, c.IsTree gen.grammar.symbolTable.getTerminals gen.grammar.productions :=
      fun c hc => (hcs' c hc).1.mono (List.Subset.refl _) (List.tail_subset _)
    have hnext : (⟨i, d⟩ : LR0Item).nextSymbol gen.grammar.productions = some ch.symbol := by
      have h := congrArg List.head? hdrop
      rw [List.head?_drop] at h
      simpa [LR0Item.nextSymbol, rhsOf, hp] using h
    have hsplit : p.rhs = p.rhs.take d ++ ch.symbol :: cs.map ParseNode.symbol := by
      rw [← List.map_cons, ← hdrop, List.take_append_drop]
    have hv' : ∀ a ∈ (cs.flatMap ParseNode.yield).map Prod.fst ++ v,
        a ∈ gen.grammar.symbolTable.getTerminals := by
      simp only [List.mem_append, List.mem_map, List.mem_flatMap]
      rintro a (⟨y, ⟨c, hc, hy⟩, rfl⟩ | ha)
      · exact (hcs' c hc).1.yield_mem y hy
      · exact hv a ha
    obtain ⟨c₁, j, node, hrun₁, htr, hstk₁, hr₁⟩ := hruns c top rest items _ hstk hs
      ⟨_, hit, hnext⟩ (by simpa [List.append_assoc] using hr) hv'
      fun hnt => Grammar.headD_mem_constFollowSet (List.getElem?_mem hp) hsplit hnt hlift hla
    obtain ⟨j', items₁, htr', hs₁, hit₁⟩ := hA.advance_mem hs hit hnext
    obtain rfl : j' = j := Option.some.inj (htr'.symm.trans htr)
    obtain ⟨c', frames, top', items', hrun₂, hstk', hlen, hhead, hs', hit', hr'⟩ :=
      forest_runs hA hp cs (d + 1) c₁ _ c.stack items₁ v hcs'
        (by rw [← List.tail_drop, hdrop]; rfl) hstk₁ hs₁ hit₁ hr₁ hv hla
    refine ⟨c', frames ++ [⟨j', some ch.symbol, some node⟩], top', items', hrun₁.trans hrun₂,
      by simp [hstk', hstk₁], by simp [hlen], hhead, hs', ?_, hr'⟩
    rwa [List.length_cons, ← Nat.add_assoc, Nat.add_right_comm]

include hT hconf hA hshape hkind

/-- Simulation: the loop runs on the leaves of every tree of the grammar's productions other than
production 0. -/
theorem tree_runs {tr : ParseNode}
    (htree : tr.IsTree gen.grammar.symbolTable.getTerminals gen.grammar.productions.tail) :
    TreeRuns gen T tr := by
  induction htree with
  | @leaf a val ha =>
    intro c top rest items v hstk hs ⟨it, hit, hx⟩ hr hv _
    have haT := (List.mem_filter.mp ha).2
    rw [ParseNode.symbol_mk] at hx ⊢
    rw [ParseNode.yield_mk_of_isTerminal haT] at hr
    have hterm : terminalFor gen.grammar c.token = some a :=
      terminalFor_of_reading hkind hr (by simpa [ha] using hv)
    obtain ⟨j, hj⟩ := Option.isSome_iff_exists.mp
      (hA.complete top.state items hs a (mem_transitionSymbols.mpr ⟨it, hit, hx⟩))
    have hact := getAction_of_cellAction hT hconf (.shift hs hit hx haT hj)
    obtain ⟨tok, rest', -, hk, hu⟩ := List.forall₂_cons_left_iff.mp hr.kinds
    obtain ⟨-, -, rfl⟩ := unread_eq_cons hu
    refine ⟨_, j, _, .single (step_shift hstk hterm hact), hj, rfl, ?_, ?_, ?_⟩
    · simpa using hr.eof
    · simpa using fun tok h => hr.pending tok (List.mem_of_mem_tail h)
    · rwa [unread_of_next _ hr.pending hr.eof]
  | @node p cs hp hnt hcs hchildren ih =>
    intro c top rest items v hstk hs ⟨it, hit, hx⟩ hr hv hla
    rw [ParseNode.symbol_mk] at hx hla ⊢
    rw [ParseNode.yield_mk_of_isNonterminal hnt] at hr
    obtain ⟨k, hk⟩ := List.mem_iff_getElem?.mp hp
    have hpi : gen.grammar.productions[k + 1]? = some p := by rwa [List.getElem?_tail] at hk
    have hit₀ : (⟨k + 1, 0⟩ : LR0Item) ∈ items := hA.mem_of_closureCandidates hs hit
      (mem_closureCandidates.mpr ⟨rfl, p.lhs, hx, hnt, mem_productionsFor.mpr ⟨p, hpi, rfl⟩⟩)
    obtain ⟨c₁, frames, top', items', hrun, hstk₁, hlen, hhead, hs', hit', hr₁⟩ :=
      forest_runs hA hpi cs 0 c top rest items v
        (fun ch hch => ⟨hchildren ch hch, ih ch hch⟩) (by simp [hcs]) hstk hs hit₀
        (by simpa using hr) hv (hla hnt)
    have hrhs : cs.length = p.rhs.length := by rw [← hcs, List.length_map]
    have hcomp : (⟨k + 1, p.rhs.length⟩ : LR0Item).isComplete gen.grammar.productions = true := by
      simp [LR0Item.isComplete, rhsOf, hpi]
    have hact := getAction_of_cellAction hT hconf (.reduce hs' (by simpa [hrhs] using hit') hpi
      hcomp (hshape.looksAugmented_of_pos _ p (Nat.succ_pos k) hpi hnt) (hla hnt))
    have htree : (ParseNode.mk p.lhs "" cs).IsTree gen.grammar.symbolTable.getTerminals
        gen.grammar.productions :=
      (ParseNode.IsTree.node hp hnt hcs hchildren).mono (List.Subset.refl _) (List.tail_subset _)
    obtain ⟨s', hg, htr⟩ := getGoto_of_mem hT hA hs hit₀ (Nat.succ_ne_zero k) hpi htree.first_ne_nil
    have hdrop : c₁.stack.drop p.rhs.length = c.stack := by
      rw [hstk₁, List.drop_left' (hlen.trans hrhs)]
    obtain ⟨tl, htl⟩ := List.head?_eq_some_iff.mp hhead
    have hred := reduce_eq_next (t := T) (c := c₁)
      (by rw [hstk₁, List.length_append, hstk, List.length_cons, hlen, hrhs]; omega)
      (by rw [hdrop, hstk]; rfl) hg
    refine ⟨_, s', .mk p.lhs "" ((c₁.stack.take p.rhs.length).reverse.filterMap (·.node)),
      hrun.tail (step_reduce htl (terminalFor_of_reading hkind hr₁ hv) hact hpi hred), htr,
      by simp [hdrop], hr₁.eof, hr₁.pending, hr₁.kinds⟩

end

end LALR1Parser

/-! ## Sentences are parsed -/

theorem forall_mem_of_forall₂ {α β : Type} {R : α → β → Prop} {P : β → Prop} {l₁ : List α}
    {l₂ : List β} (h : List.Forall₂ R l₁ l₂) (hP : ∀ a ∈ l₁, ∀ b, R a b → P b) : ∀ b ∈ l₂, P b := by
  induction h with
  | nil => simp
  | cons hab _ ih =>
    rw [List.forall_mem_cons] at hP ⊢
    exact ⟨hP.1 _ hab, ih hP.2⟩

open LALR1Parser in
/-- For a built grammar with plain nonterminal names, start symbol `S` and terminals of pairwise
distinct token kinds other than `EOF_TOKEN`, whose table from `generate_table` after `augment` has
no conflicts: for every parse tree of the grammar for `S` (a derivation of the terminal string of
its leaves), `parse_internal` on tokens of the kinds of its leaves, followed by EOF tokens, returns
a tree once it is given enough iterations. -/
theorem parse_complete {g : Grammar} {S : Symbol} (hb : g.Built) (hS : g.startSymbol = some S)
    (hn : g.symbolTable.PlainNames)
    (hkind : ∀ a ∈ g.symbolTable.getTerminals, ∀ b ∈ g.symbolTable.getTerminals,
      a.tokenType = b.tokenType → a = b)
    (heofk : ∀ a ∈ g.symbolTable.getTerminals, a.tokenType ≠ .eofToken) {gen : LALR1Generator}
    (hgen : LALR1Generator.create g.augment = some gen) {addr : Nat → Nat} {T : ParseTable}
    (hT : gen.generateTable addr = .ok T) (hconf : T.hasConflicts = false) {tr : ParseNode}
    (htree : tr.IsTree g.symbolTable.getTerminals g.productions) (hroot : tr.symbol = S)
    {w : List Token}
    (hw : List.Forall₂ (fun (l : Symbol × String) (tok : Token) => tok.type = l.1.tokenType)
      tr.yield w)
    {eof : Token} (heof : eof.isEof = true) :
    ∃ n, ∀ fuel, n ≤ fuel → ∃ t, parseInternal g.augment T ⟨w, eof⟩ fuel = some (.success (some t)) := by
  obtain ⟨gen', hgen', hg, hA, hshape⟩ := LALR1Generator.create_augment hb hS hn
  obtain rfl : gen = gen' := Option.some.inj (hgen.symm.trans hgen')
  obtain ⟨hterms, hprods⟩ := hb.augment_keeps hS hn
  have hstart : g.augment.startSymbol = some (.nonterminal (S.name ++ "'")) := by
    rw [Grammar.augment_startSymbol (hb.wf.isAugmented_eq_false hn) hS,
      (Grammar.augmentedStart_fresh hn S).1]
  rw [← hg] at hA hshape hterms hprods hstart ⊢
  rw [← hterms] at hkind heofk htree
  rw [← hprods] at htree
  have hconf' : T.conflicts = [] := by simpa [ParseTable.hasConflicts] using hconf
  have hleaves := htree.yield_mem
  have hw' : ∀ tok ∈ w, tok.isEof = false := forall_mem_of_forall₂ hw fun l hl tok htype => by
    simpa [Token.isEof, htype] using heofk l.1 (hleaves l hl)
  have hnext : (⟨0, 0⟩ : LR0Item).nextSymbol gen.grammar.productions = some tr.symbol := by
    simp [LR0Item.nextSymbol, rhsOf, hshape.zero, hroot]
  obtain ⟨c, j, node, hrun, hj, hstk, hr⟩ := tree_runs hT hconf' hA hshape hkind htree
    (initConfig ⟨w, eof⟩) _ [] _ [] rfl hA.start ⟨_, subset_closure _ (List.mem_singleton_self _),
      hnext⟩
    ⟨by simpa [initConfig] using heof,
      fun tok h => hw' tok (List.mem_of_mem_tail (by simpa [initConfig] using h)),
      by rw [initConfig, unread_of_next _ hw' heof, List.append_nil, List.forall₂_map_left_iff]; exact hw⟩
    (by simp) fun hnt => by
      rw [hroot] at hnt ⊢
      exact Grammar.endOfInput_mem_constFollowSet hshape.zero hstart hnt
  rw [hroot] at hj hstk
  obtain ⟨-, target, -, htarget, -⟩ := hA.sound 0 S j hj
  have h01 := (hA.mem_zero_one_iff hshape.zero hshape.start_fresh htarget).mpr hj
  have hacc := LALR1Generator.getAction_of_cellAction hT hconf'
    (LALR1Generator.cellAction_accept_of_mem hshape htarget h01)
  have hterm := terminalFor_of_reading hkind hr (by simp)
  have hdone : parseStep gen.grammar T c = some (.done (.success (some node))) := by
    simp [parseStep, hstk, hterm, hacc, initConfig]
  obtain ⟨n, hn⟩ := parseLoop_of_reach hrun hdone
  exact ⟨n, fun fuel hf => ⟨node, hn fuel hf⟩⟩

/-- The tree `S(A, x)` of `emptyRhsGrammar`, for `S → A x` and `A → []`. -/
theorem sxTree_isTree :
    sxTree.IsTree emptyRhsGrammar.symbolTable.getTerminals emptyRhsGrammar.productions := by
  refine .node (p := ⟨.nonterminal "S", [.nonterminal "A", .terminal "x" .identifier]⟩)
    (by decide) rfl rfl ?_
  simp only [List.mem_cons, List.mem_singleton, List.not_mem_nil, or_false]
  rintro c (rfl | rfl)
  · exact .node (p := ⟨.nonterminal "A", []⟩) (by decide) rfl rfl (by simp)
  · exact .leaf _ (by decide)

open LALR1Parser in
theorem parse_complete_emptyRhs :
    ∃ gen T, LALR1Generator.create emptyRhsGrammar.augment = some gen ∧
      gen.generateTable id = .ok T ∧ T.hasConflicts = false ∧
      ∃ n, ∀ fuel, n ≤ fuel → ∃ t,
        parseInternal emptyRhsGrammar.augment T xStream fuel = some (.success (some t)) := by
  have key : ((LALR1Generator.create emptyRhsGrammar.augment).any fun gen =>
      (gen.generateTable id).toOption.any fun T => !T.hasConflicts) = true := by
    decide
  cases hc : LALR1Generator.create emptyRhsGrammar.augment with
  | none => simp [hc] at key
  | some gen =>
    cases hT : gen.generateTable id with
    | error e => simp [hc, hT, Except.toOption] at key
    | ok T =>
      simp only [hc, hT, Option.any_some, Except.toOption, Bool.not_eq_true'] at key
      exact ⟨gen, T, rfl, hT, key, parse_complete emptyRhsGrammar_built rfl (by decide)
        (by decide) (by decide) hc hT key sxTree_isTree rfl
        (by simp [sxTree, ParseNode.yield, xStream, Symbol.nonterminal, Symbol.terminal]) (by decide)⟩

end Lalr1
