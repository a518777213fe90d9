import Lalr1.Slr
import Lalr1.Tree

/-!
# The driver's stack follows the automaton

`parse_internal` keeps its stack a path of the LR(0) automaton from the bottom frame
`(0, null, null)`: every frame above it holds the transition, on the frame's symbol, from the state
below, and a parse tree for that symbol (`StackPath`, `FrameTree`). On such a stack an item
`(p, d)` of the top state has the `d` top frames labelled with the first `d` symbols of `p` and
`(p, 0)` in the state below them (`StackPath.pop`).

The table of `generate_table`, with or without conflicts, holds in each cell an action some item
of the state asks for. So a `Reduce(p)` finds `|rhs p|` frames above the bottom one and a goto
entry for the left-hand side (its FIRST set is not empty, since it has a tree), an `Accept` finds
two frames, and a `Shift` follows a transition: every step keeps the path
(`parseStep_stackPath`), and the only failures are the unknown-token and unexpected-token errors
(`internal_errors_unreachable`).
-/

namespace Lalr1

namespace LALR1Parser

/-- The stack is a path of `A` from the bottom frame `(0, null, null)`: each frame above it holds
the state of the transition, on the frame's symbol, from the state below, and a node satisfying
`P` for that symbol. -/
inductive StackPath (A : LR0Automaton) (P : Symbol → Option ParseNode → Prop) :
    List StackElement → Prop
  | bottom : StackPath A P [⟨0, none, none⟩]
  | push {below : StackElement} {rest : List StackElement} {X : Symbol} {s : Nat}
      {node : Option ParseNode} : StackPath A P (below :: rest) →
      A.getTransition below.state X = some s → P X node →
      StackPath A P (⟨s, some X, node⟩ :: below :: rest)

namespace StackPath

variable {A : LR0Automaton} {P : Symbol → Option ParseNode → Prop} {stk : List StackElement}

/-- The bottom frame is never popped. -/
theorem getLast? (h : StackPath A P stk) : stk.getLast? = some ⟨0, none, none⟩ := by
  induction h with
  | bottom => rfl
  | push _ _ _ ih => rwa [List.getLast?_cons_cons]

theorem ne_nil (h : StackPath A P stk) : stk ≠ [] := by
  cases h <;> simp

theorem drop (h : StackPath A P stk) : ∀ n, n < stk.length → StackPath A P (stk.drop n) := by
  induction h with
  | bottom => intro n hn; simp at hn; subst hn; exact .bottom
  | push hb htr hP ih =>
    intro n hn
    cases n with
    | zero => exact .push hb htr hP
    | succ n => exact ih n (by simpa using hn)

variable {t : SymbolTable} {prods : List Production}

/-- The state of every frame is a state of the automaton. -/
theorem state_mem (hA : A.Spec t prods) (h : StackPath A P stk) {top : StackElement}
    (htop : stk.head? = some top) : ∃ items, A.states[top.state]? = some items := by
  cases h with
  | bottom =>
    cases htop
    exact ⟨_, hA.start⟩
  | push _ htr _ =>
    cases htop
    obtain ⟨-, target, -, htarget, -⟩ := hA.sound _ _ _ htr
    exact ⟨target, htarget⟩

/-- Pop lemma: an item `(p, d)` of the top state has `d` frames above the bottom one, labelled
with the first `d` symbols of `p` and satisfying `P`, and `(p, 0)` in the state below them. -/
theorem pop (hA : A.Spec t prods) {p : Nat} : ∀ (d : Nat) {stk : List StackElement}
    {top : StackElement} {items : List LR0Item}, StackPath A P stk → stk.head? = some top →
    A.states[top.state]? = some items → (⟨p, d⟩ : LR0Item) ∈ items →
    ∃ below, (stk.drop d).head? = some below ∧
      (∃ items', A.states[below.state]? = some items' ∧ (⟨p, 0⟩ : LR0Item) ∈ items') ∧
      (stk.take d).reverse.map (·.symbol) = ((rhsOf prods p).take d).map some ∧
      ∀ f ∈ stk.take d, ∃ X, f.symbol = some X ∧ P X f.node
  | 0, _, top, items, _, htop, hs, hit => ⟨top, by simpa using htop, ⟨items, hs, hit⟩, by simp, by simp⟩
  | d + 1, _, top, items, h, htop, hs, hit => by
    cases h with
    | bottom =>
      cases htop
      obtain rfl := Option.some.inj (hs.symm.trans hA.start)
      have := (mem_closure_of_not_mem hit (by simp)).1
      simp at this
    | @push below rest X s node hb htr hP =>
      cases htop
      obtain ⟨itemsB, target, hB, htarget, hsame⟩ := hA.sound _ _ _ htr
      obtain rfl := Option.some.inj (hs.symm.trans htarget)
      obtain ⟨-, hmem, hnext⟩ := mem_gotoKernel.mp
        (mem_gotoKernel_of_mem_closure ((sameItems_iff.mp hsame).1 hit) (by simp))
      obtain ⟨below', hdrop, hstate, hsyms, hframes⟩ := pop hA d hb rfl hB (by simpa using hmem)
      have hX : (rhsOf prods p)[d]? = some X := by simpa [LR0Item.nextSymbol] using hnext
      refine ⟨below', by simpa using hdrop, hstate, ?_, ?_⟩
      · rw [List.take_succ_cons, List.reverse_cons, List.map_append, hsyms, List.take_succ, hX]
        simp
      · intro f hf
        rcases List.mem_cons.mp (by simpa using hf) with rfl | hf
        · exact ⟨X, rfl, hP⟩
        · exact hframes f hf

end StackPath

/-! ## One iteration of the loop -/

variable {g : Grammar} {t : ParseTable} {c : Config} {r : StepResult}

/-- What one iteration of the loop did, read off `parseStep` (`parseStep_cases`). -/
inductive StepCase (g : Grammar) (t : ParseTable) (c : Config) : StepResult → Prop
  | unknown {top : StackElement} {rest : List StackElement} : c.stack = top :: rest →
      terminalFor g c.token = none →
      StepCase g t c (.done (.failure ("Unknown token: " ++ c.token.value) c.token.line c.token.column))
  | shift {top : StackElement} {rest : List StackElement} {a : Symbol} {s : Nat} :
      c.stack = top :: rest → terminalFor g c.token = some a → t.getAction top.state a = .shift s →
      StepCase g t c (.next ⟨⟨s, some a, some (.mk a c.token.value [])⟩ :: c.stack,
        c.lexer.next.1, c.lexer.next.2⟩)
  | reduce {top : StackElement} {rest : List StackElement} {a : Symbol} {i : Nat} {p : Production} :
      c.stack = top :: rest → terminalFor g c.token = some a → t.getAction top.state a = .reduce i →
      g.productions[i]? = some p → StepCase g t c (reduce t c p)
  | accept {top : StackElement} {rest : List StackElement} {a : Symbol} :
      c.stack = top :: rest → terminalFor g c.token = some a → t.getAction top.state a = .accept →
      StepCase g t c (if 2 ≤ c.stack.length then .done (.success top.node)
        else .done (.failure "Invalid stack state at accept" c.token.line c.token.column))
  | error {top : StackElement} {rest : List StackElement} {a : Symbol} :
      c.stack = top :: rest → terminalFor g c.token = some a → t.getAction top.state a = .error →
      StepCase g t c (.done (.failure (unexpectedTokenMessage c.token (getExpectedSymbols g t top.state))
        c.token.line c.token.column))

theorem parseStep_cases (h : parseStep g t c = some r) : StepCase g t c r := by
  unfold parseStep at h
  split at h
  · cases h
  · rename_i top rest hstk
    split at h
    · cases h
      exact .unknown hstk ‹_›
    · rename_i a ha
      split at h
      · cases h
        exact .shift hstk ha ‹_›
      · obtain ⟨p, hp, rfl⟩ := Option.map_eq_some'.mp h
        exact .reduce hstk ha ‹_› hp
      · rename_i hact
        have hc : StepCase g t c _ := .accept hstk ha hact
        split at h <;> cases h
        · rwa [if_pos ‹_›] at hc
        · rwa [if_neg ‹_›] at hc
      · cases h
        exact .error hstk ha ‹_›

/-- The reduce branch when the stack is deep enough and the goto entry of the state below exists:
push the node built from the popped frames on what is left. -/
theorem reduce_eq_next {p : Production} (hlen : p.rhs.length < c.stack.length)
    {below : StackElement} (hbelow : (c.stack.drop p.rhs.length).head? = some below) {s : Nat}
    (hg : t.getGoto below.state p.lhs = some s) :
    reduce t c p = .next ⟨⟨s, some p.lhs,
      some (.mk p.lhs "" ((c.stack.take p.rhs.length).reverse.filterMap (·.node)))⟩ ::
        c.stack.drop p.rhs.length, c.token, c.lexer⟩ := by
  simp [reduce, Nat.not_lt.mpr hlen.le, hbelow, hg]

/-- The terminal found for a token other than EOF is a terminal of the table. -/
theorem terminalFor_mem {tok : Token} {a : Symbol} (h : terminalFor g tok = some a)
    (ha : a.isTerminal = true) : a ∈ g.symbolTable.getTerminals := by
  unfold terminalFor at h
  split at h
  · cases h
    simp [endOfInputSymbol, Symbol.isTerminal] at ha
  · exact List.mem_of_find?_eq_some h

/-- A frame's node is a parse tree for the frame's symbol, of the productions other than
production 0 (`S' → S`, which is never reduced). -/
def FrameTree (g : Grammar) (X : Symbol) (node : Option ParseNode) : Prop :=
  ∃ tr, node = some tr ∧ tr.symbol = X ∧
    tr.IsTree g.symbolTable.getTerminals g.productions.tail

/-- The frames popped by a reduction of `X₁ … Xₖ`, bottom first, hold trees for `X₁ … Xₖ`. -/
theorem filterMap_node_of_frameTree : ∀ {fs : List StackElement} {rhs : List Symbol},
    fs.map (·.symbol) = rhs.map some → (∀ f ∈ fs, ∃ X, f.symbol = some X ∧ FrameTree g X f.node) →
    (fs.filterMap (·.node)).map ParseNode.symbol = rhs ∧
      ∀ tr ∈ fs.filterMap (·.node), tr.IsTree g.symbolTable.getTerminals g.productions.tail
  | [], rhs, hs, _ => by
    cases rhs with
    | nil => simp
    | cons _ _ => simp at hs
  | f :: fs, rhs, hs, hf => by
    obtain ⟨X, hX, tr, hnode, hsym, htree⟩ := hf f (List.mem_cons_self f fs)
    cases rhs with
    | nil => simp at hs
    | cons Y rhs =>
      simp only [List.map_cons, List.cons.injEq, hX, Option.some.injEq] at hs
      obtain ⟨rfl, hs⟩ := hs
      obtain ⟨h1, h2⟩ := filterMap_node_of_frameTree hs fun f' hf' => hf f' (List.mem_cons_of_mem f hf')
      simp only [List.filterMap_cons, hnode, List.map_cons, List.mem_cons, forall_eq_or_imp]
      exact ⟨by rw [h1, hsym], htree, h2⟩

/-- The errors of the current token: an unknown token, or an unexpected one, reported with the
expected symbols of the top state. -/
def TokenError (g : Grammar) (t : ParseTable) (c : Config) (msg : String) (line col : Nat) : Prop :=
  line = c.token.line ∧ col = c.token.column ∧
    ((terminalFor g c.token = none ∧ msg = "Unknown token: " ++ c.token.value) ∨
      ∃ top rest, c.stack = top :: rest ∧
        msg = unexpectedTokenMessage c.token (getExpectedSymbols g t top.state))

end LALR1Parser

/-! ## The generated table on a path -/

namespace LALR1Generator

variable {gen : LALR1Generator} {addr : Nat → Nat} {T : ParseTable}

/-- A cell that holds an action other than `Error` holds one that an item of its state asks for. -/
theorem cellAction_of_getAction (hT : gen.generateTable addr = .ok T) {s : Nat} {a : Symbol}
    {act : Action} (h : T.getAction s a = act) (hne : act ≠ .error) : gen.CellAction s a act := by
  cases hc : T.actionTable s a with
  | none => simp [ParseTable.getAction, hc] at h; exact absurd h.symm hne
  | some act' =>
    obtain rfl : act' = act := by simpa [ParseTable.getAction, hc] using h
    exact generateTable_actionTable_some hT hc

theorem itemLookaheads_of_nextSymbol {g : Grammar} {it : LR0Item} {x : Symbol}
    (hx : it.nextSymbol g.productions = some x) (hnt : x.isNonterminal = true) :
    itemLookaheads g it = g.constFirstSet x := by
  obtain ⟨p, hp⟩ := production_of_nextSymbol hx
  have hcomp : it.isComplete g.productions = false := by
    cases h : it.isComplete g.productions
    · rfl
    · simp [(LR0Item.nextSymbol_eq_none_iff _ _).mpr h] at hx
  have hterm : x.isTerminal = false := by
    simp only [Symbol.isNonterminal_iff] at hnt
    simp [Symbol.isTerminal, hnt]
  simp [itemLookaheads, hp, hcomp, hx, hterm, hnt]

/-- A `Shift` cell holds the transition on a terminal. -/
theorem shift_cell (hT : gen.generateTable addr = .ok T) {s : Nat} {a : Symbol} {j : Nat} (h : T.getAction s a = .shift j) :
    gen.lr0Automaton.getTransition s a = some j ∧ a.isTerminal = true := by
  cases cellAction_of_getAction hT h (by simp) with
  | shift _ _ _ hterm hj => exact ⟨hj, hterm⟩

variable (hT : gen.generateTable addr = .ok T)
  (hA : gen.lr0Automaton.Spec gen.grammar.symbolTable gen.grammar.productions)
include hT hA

/-- The goto entry the driver reads after reducing a production `i ≠ 0` to a state holding
`(i, 0)`: when the left-hand side has a non-empty FIRST set, the table holds the transition on it
(`get_transition_symbols` of the LALR state skips items without lookaheads). -/
theorem getGoto_of_mem {s : Nat} {items : List LR0Item}
    (hs : gen.lr0Automaton.states[s]? = some items) {i : Nat} (hit : (⟨i, 0⟩ : LR0Item) ∈ items)
    (hi : i ≠ 0) {p : Production} (hp : gen.grammar.productions[i]? = some p)
    (hfirst : gen.grammar.constFirstSet p.lhs ≠ []) :
    ∃ s', T.getGoto s p.lhs = some s' ∧ gen.lr0Automaton.getTransition s p.lhs = some s' := by
  obtain ⟨item, hitem, hc⟩ := hA.exists_candidate_of_mem hs hit hi
  obtain ⟨-, x, hx, hnt, hmem⟩ := mem_closureCandidates.mp hc
  obtain ⟨q, hq, rfl⟩ := mem_productionsFor.mp hmem
  obtain rfl := Option.some.inj (hq.symm.trans hp)
  obtain ⟨la, hla⟩ := List.exists_mem_of_ne_nil _ hfirst
  obtain ⟨s', hs'⟩ : ∃ s', gen.lr0Automaton.getTransition s q.lhs = some s' :=
    Option.isSome_iff_exists.mp
      (hA.complete s items hs q.lhs (mem_transitionSymbols.mpr ⟨item, hitem, hx⟩))
  have hst : (⟨s, items, items.flatMap fun c => (itemLookaheads gen.grammar c).map
      (LR1Item.mk c.production c.dotPosition)⟩ : LALRState) ∈ gen.buildLalrStates :=
    List.mem_map.mpr ⟨(s, items), List.mem_enum_iff_getElem?.mpr hs, rfl⟩
  have hsym : q.lhs ∈ LALRState.transitionSymbols gen.grammar.symbolTable gen.grammar.productions
      ⟨s, items, items.flatMap fun c => (itemLookaheads gen.grammar c).map
        (LR1Item.mk c.production c.dotPosition)⟩ := by
    simp only [LALRState.transitionSymbols, mem_orderBySymbolTable, List.mem_filterMap,
      List.mem_flatMap, List.mem_map]
    refine ⟨⟨item.production, item.dotPosition, la⟩, ⟨item, hitem, la, ?_, rfl⟩, hx⟩
    rwa [itemLookaheads_of_nextSymbol hx hnt]
  refine ⟨s', ?_, hs'⟩
  rw [generateTable_getGoto hT, if_pos ⟨⟨_, hst, rfl, hsym⟩, hnt, by simp [hs']⟩, hs']

/-- An `Accept` cell is in a state holding a complete item `(q, 1)`. -/
theorem accept_cell {s : Nat} {a : Symbol} (h : T.getAction s a = .accept) :
    ∃ items q, gen.lr0Automaton.states[s]? = some items ∧ (⟨q, 1⟩ : LR0Item) ∈ items := by
  cases cellAction_of_getAction hT h (by simp) with
  | @accept core it p hcore hit hp hcomp hacc _ =>
    have hlen : p.rhs.length = 1 := by
      simp only [Production.looksAugmented, Bool.and_eq_true, beq_iff_eq] at hacc
      exact hacc.2
    have hvalid := mem_itemUniverse.mp (hA.valid core (List.getElem?_mem hcore) hit)
    simp only [LR0Item.isComplete, rhsOf, hp, Option.map_some', Option.getD_some, hlen,
      decide_eq_true_eq] at hcomp hvalid
    exact ⟨core, it.production, hcore, by
      obtain ⟨q, d⟩ := it
      simp only at hvalid hcomp
      obtain rfl : d = 1 := by omega
      exact hit⟩

variable (h0 : ∀ q, gen.grammar.productions[0]? = some q → q.looksAugmented = true)
include h0

/-- A `Reduce(i)` cell is in a state holding the complete item of `i`, a production other than 0
with a nonterminal left-hand side. -/
theorem reduce_cell {s : Nat} {a : Symbol} {i : Nat} (h : T.getAction s a = .reduce i) :
    ∃ items p, gen.lr0Automaton.states[s]? = some items ∧
      (⟨i, p.rhs.length⟩ : LR0Item) ∈ items ∧ gen.grammar.productions[i]? = some p ∧ i ≠ 0 ∧
      p.lhs.isNonterminal = true := by
  cases cellAction_of_getAction hT h (by simp) with
  | @reduce core it p hcore hit hp hcomp hacc _ =>
    have hi : it.production ≠ 0 := fun h => by
      rw [h] at hp
      simp [h0 p hp] at hacc
    have hvalid := mem_itemUniverse.mp (hA.valid core (List.getElem?_mem hcore) hit)
    simp only [LR0Item.isComplete, rhsOf, hp, Option.map_some', Option.getD_some,
      decide_eq_true_eq] at hcomp hvalid
    obtain hz | ⟨q, hq, hnt⟩ := hA.production_lhs hcore it hit
    · exact absurd hz hi
    obtain rfl := Option.some.inj (hq.symm.trans hp)
    refine ⟨core, q, hcore, ?_, hp, hi, hnt⟩
    obtain ⟨i, d⟩ := it
    simp only at hvalid hcomp ⊢
    obtain rfl : d = q.rhs.length := by omega
    exact hit

end LALR1Generator

/-- Production 0 of a built grammar after `augment` passes the accept test. -/
theorem Grammar.Wf.looksAugmented_zero {g : Grammar} (h : g.Wf) (ha : g.isAugmented = true) :
    ∀ q, g.productions[0]? = some q → q.looksAugmented = true := by
  obtain ⟨a, b, rest, hp, -, hname, -⟩ := h.augmented ha
  intro q hq
  rw [hp, List.getElem?_cons_zero, Option.some.injEq] at hq
  subst hq
  simp [Production.looksAugmented, hname, back_append_apostrophe]

namespace LALR1Generator

variable {g : Grammar} {gen : LALR1Generator}

/-- The generator's constructor builds the automaton of `Spec`. -/
theorem spec_of_create (h : create g = some gen) :
    gen.lr0Automaton.Spec gen.grammar.symbolTable gen.grammar.productions := by
  obtain ⟨A, hA, rfl⟩ := Option.map_eq_some'.mp h
  have hne : g.productions ≠ [] := fun hn => by simp [LR0Automaton.build_eq_none_iff.mpr hn] at hA
  obtain ⟨A', hA', hspec⟩ := LR0Automaton.build_spec hne
  obtain rfl := Option.some.inj (hA.symm.trans hA')
  exact hspec

theorem isAugmented_of_generateTable {addr : Nat → Nat} {T : ParseTable}
    (hT : gen.generateTable addr = .ok T) : gen.grammar.isAugmented = true := by
  unfold generateTable at hT
  split at hT
  · cases hT
  · rename_i h
    simpa using h

end LALR1Generator

/-! ## Every step keeps the path -/

namespace LALR1Parser

open LALR1Generator

variable {gen : LALR1Generator} {addr : Nat → Nat} {T : ParseTable}
  (hT : gen.generateTable addr = .ok T)
  (hA : gen.lr0Automaton.Spec gen.grammar.symbolTable gen.grammar.productions)
  (h0 : ∀ q, gen.grammar.productions[0]? = some q → q.looksAugmented = true)
include hT hA h0

/-- A `Reduce(i)` cell of the top state of a path: production `i ≠ 0` exists and has a nonterminal
left-hand side, the stack holds more frames than its right-hand side, the goto entry of the state
below them on the left-hand side is the automaton's transition, and the node built from the
popped frames is a tree for the left-hand side. -/
theorem reduce_stackPath {stk : List StackElement}
    (hc : StackPath gen.lr0Automaton (FrameTree gen.grammar) stk) {top : StackElement}
    (htop : stk.head? = some top) {a : Symbol} {i : Nat} (hact : T.getAction top.state a = .reduce i) :
    ∃ p below s', gen.grammar.productions[i]? = some p ∧ i ≠ 0 ∧ p.lhs.isNonterminal = true ∧
      p.rhs.length < stk.length ∧ (stk.drop p.rhs.length).head? = some below ∧
      T.getGoto below.state p.lhs = some s' ∧ gen.lr0Automaton.getTransition below.state p.lhs = some s' ∧
      FrameTree gen.grammar p.lhs
        (some (.mk p.lhs "" ((stk.take p.rhs.length).reverse.filterMap (·.node)))) := by
  obtain ⟨items, hs⟩ := hc.state_mem hA htop
  obtain ⟨items', p, hs', hit, hp, hi, hnt⟩ := reduce_cell hT hA h0 hact
  obtain rfl := Option.some.inj (hs'.symm.trans hs)
  have hrhs : rhsOf gen.grammar.productions i = p.rhs := by simp [rhsOf, hp]
  obtain ⟨below, hdrop, ⟨itemsB, hB, hitB⟩, hsyms, hframes⟩ := hc.pop hA _ htop hs hit
  rw [hrhs, List.take_length] at hsyms
  have hlen : p.rhs.length < stk.length := by
    rw [List.head?_drop, List.getElem?_eq_some_iff] at hdrop
    exact hdrop.1
  obtain ⟨htrees, hchildren⟩ := filterMap_node_of_frameTree hsyms fun f hf =>
    hframes f (List.mem_reverse.mp hf)
  have hmem : p ∈ gen.grammar.productions.tail := by
    obtain ⟨k, rfl⟩ := Nat.exists_eq_succ_of_ne_zero hi
    exact List.getElem?_mem (by rw [List.getElem?_tail]; exact hp)
  have htree := ParseNode.IsTree.node hmem hnt htrees hchildren
  obtain ⟨s', hg, htr⟩ := getGoto_of_mem hT hA hB hitB hi hp
    ((htree.mono (List.Subset.refl _) (List.tail_subset _)).first_ne_nil)
  exact ⟨p, below, s', hp, hi, hnt, hlen, hdrop, hg, htr, _, rfl, rfl, htree⟩

/-- Step lemma: from a stack that is a path of the automaton, one iteration of the loop returns
(it never reaches an empty stack or a missing production), continues on a path, or fails on the
current token. -/
theorem parseStep_stackPath {c : Config}
    (hc : StackPath gen.lr0Automaton (FrameTree gen.grammar) c.stack) :
    ∃ r, parseStep gen.grammar T c = some r ∧
      (∀ c', r = .next c' → StackPath gen.lr0Automaton (FrameTree gen.grammar) c'.stack) ∧
      (∀ msg line col, r = .done (.failure msg line col) →
        TokenError gen.grammar T c msg line col) := by
  obtain ⟨stack, tok, lex⟩ := c
  obtain ⟨top, rest, rfl⟩ := List.exists_cons_of_ne_nil hc.ne_nil
  obtain ⟨items, hs⟩ := hc.state_mem hA rfl
  simp only [parseStep]
  cases hterm : terminalFor gen.grammar tok with
  | none =>
    refine ⟨_, rfl, by simp, fun msg line col h => ?_⟩
    cases h
    exact ⟨rfl, rfl, .inl ⟨hterm, rfl⟩⟩
  | some a =>
    dsimp only
    cases hact : T.getAction top.state a with
    | shift j =>
      dsimp only
      obtain ⟨htr, ha⟩ := shift_cell hT hact
      refine ⟨_, rfl, fun c' h => ?_, by simp⟩
      cases h
      exact .push hc htr ⟨.mk a tok.value [], rfl, rfl, .leaf _ (terminalFor_mem hterm ha)⟩
    | reduce i =>
      dsimp only
      obtain ⟨p, below, s', hp, -, -, hlen, hdrop, hg, htr, htree⟩ := reduce_stackPath hT hA h0 hc rfl hact
      obtain ⟨rest', hrest⟩ := List.head?_eq_some_iff.mp hdrop
      refine ⟨_, by rw [hp, Option.map_some', reduce_eq_next hlen hdrop hg], fun c' h => ?_, by simp⟩
      cases h
      have hpath := hc.drop _ hlen
      rw [hrest] at hpath ⊢
      exact .push hpath htr htree
    | accept =>
      dsimp only
      obtain ⟨items', q, hs', hit⟩ := accept_cell hT hA hact
      obtain rfl := Option.some.inj (hs'.symm.trans hs)
      obtain ⟨below, hdrop, -⟩ := hc.pop hA 1 rfl hs hit
      have hlen : 2 ≤ (top :: rest).length := by
        cases rest with
        | nil => simp at hdrop
        | cons => simp
      exact ⟨_, by rw [if_pos hlen], by simp, by simp⟩
    | error =>
      dsimp only
      refine ⟨_, rfl, by simp, fun msg line col h => ?_⟩
      cases h
      exact ⟨rfl, rfl, .inr ⟨top, rest, rfl, rfl⟩⟩

end LALR1Parser

/-! ## Whole runs -/

namespace LALR1Parser

variable {g : Grammar} {t : ParseTable}

/-- One iteration of the loop that continues, from `c` to `c'`. -/
def Step (g : Grammar) (t : ParseTable) (c c' : Config) : Prop := parseStep g t c = some (.next c')

/-- Run lemma: a result of the loop is returned by the last step, from a configuration the
steps reach. -/
theorem parseLoop_done : ∀ (n : Nat) (c : Config) {res : ParseResult},
    parseLoop g t n c = some res →
      ∃ c', Relation.ReflTransGen (Step g t) c c' ∧ parseStep g t c' = some (.done res)
  | 0, _, _, h => by cases h
  | n + 1, c, res, h => by
    unfold parseLoop at h
    split at h
    · rename_i c' hs
      obtain ⟨c'', hr, hd⟩ := parseLoop_done n c' h
      exact ⟨c'', .head hs hr, hd⟩
    · rename_i r hs
      cases h
      exact ⟨c, .refl, hs⟩
    · cases h

section

open LALR1Generator

variable {gen : LALR1Generator} {addr : Nat → Nat} {T : ParseTable}
  (hT : gen.generateTable addr = .ok T)
  (hA : gen.lr0Automaton.Spec gen.grammar.symbolTable gen.grammar.productions)
  (h0 : ∀ q, gen.grammar.productions[0]? = some q → q.looksAugmented = true)
include hT hA h0

/-- Every configuration the loop reaches has a path of the automaton for its stack. -/
theorem stackPath_of_reach {ts : TokenStream} {c : Config}
    (h : Relation.ReflTransGen (Step gen.grammar T) (initConfig ts) c) :
    StackPath gen.lr0Automaton (FrameTree gen.grammar) c.stack := by
  induction h with
  | refl => exact .bottom
  | tail _ hs ih =>
    obtain ⟨r, hr, hnext, -⟩ := parseStep_stackPath hT hA h0 ih
    rw [hs] at hr
    cases hr
    exact hnext _ rfl

end

end LALR1Parser

open LALR1Parser in
/-- For a built grammar on which `generate_table` returns a table, with or without conflicts, every
configuration `parse_internal` reaches keeps the bottom frame `(0, null, null)` under its stack and
has a next iteration; and every failure it returns is an unknown-token or unexpected-token error
at the current token of a reached configuration: never a stack underflow, a missing goto entry or
an accept on a short stack. -/
theorem internal_errors_unreachable {g : Grammar} (hb : g.Built) {gen : LALR1Generator}
    (hgen : LALR1Generator.create g = some gen) {addr : Nat → Nat} {T : ParseTable}
    (hT : gen.generateTable addr = .ok T) (ts : TokenStream) :
    (∀ c, Relation.ReflTransGen (Step g T) (initConfig ts) c →
      c.stack.getLast? = some ⟨0, none, none⟩ ∧ parseStep g T c ≠ none) ∧
    ∀ fuel msg line col, parseInternal g T ts fuel = some (.failure msg line col) →
      ∃ c, Relation.ReflTransGen (Step g T) (initConfig ts) c ∧ TokenError g T c msg line col := by
  obtain rfl := LALR1Generator.grammar_of_create hgen
  have hA := LALR1Generator.spec_of_create hgen
  have h0 := hb.wf.looksAugmented_zero (LALR1Generator.isAugmented_of_generateTable hT)
  have hpath := fun c (h : Relation.ReflTransGen (Step gen.grammar T) (initConfig ts) c) =>
    stackPath_of_reach hT hA h0 h
  refine ⟨fun c h => ⟨(hpath c h).getLast?, fun hn => ?_⟩, fun fuel msg line col h => ?_⟩
  · obtain ⟨r, hr, -⟩ := parseStep_stackPath hT hA h0 (hpath c h)
    simp [hn] at hr
  · obtain ⟨c, hreach, hd⟩ := parseLoop_done fuel _ h
    obtain ⟨r, hr, -, herr⟩ := parseStep_stackPath hT hA h0 (hpath c hreach)
    rw [hd] at hr
    cases hr
    exact ⟨c, hreach, herr _ _ _ rfl⟩

open LALR1Parser in
theorem internal_errors_unreachable_expr :
    ∃ gen T, LALR1Generator.create exprGrammar.augment = some gen ∧ gen.generateTable id = .ok T ∧
      ∀ ts, (∀ c, Relation.ReflTransGen (Step exprGrammar.augment T) (initConfig ts) c →
        c.stack.getLast? = some ⟨0, none, none⟩ ∧ parseStep exprGrammar.augment T c ≠ none) ∧
      ∀ fuel msg line col, parseInternal exprGrammar.augment T ts fuel = some (.failure msg line col) →
        ∃ c, Relation.ReflTransGen (Step exprGrammar.augment T) (initConfig ts) c ∧
          TokenError exprGrammar.augment T c msg line col := by
  obtain ⟨gen, hgen, hg, -, hshape⟩ := LALR1Generator.create_augment exprGrammar_built rfl (by decide)
  obtain ⟨T, hT⟩ := gen.generateTable_ok id (hg ▸ hshape.isAugmented)
  exact ⟨gen, T, hgen, hT, internal_errors_unreachable (Grammar.Built.augment exprGrammar_built) hgen hT⟩

end Lalr1
