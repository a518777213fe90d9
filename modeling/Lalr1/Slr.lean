import Lalr1.TableWrites
import Lalr1.FirstFollow
import Lalr1.Augment

/-!
# The generated table is the SLR(1) table

Take a grammar built through the API whose nonterminal names are non-empty and do not end in an
apostrophe, with right-hand sides and start symbol made of terminals and nonterminals. The
actions `generate_table` writes to a cell `(s, a)` of a terminal or `$` are exactly the SLR(1)
actions of the LR(0) state `s` on `a` (`cellAction_iff_slrAction`): the lookaheads of the LALR
states are FOLLOW sets, and the name test recognises exactly the item `(0, 1)` of `S' → S`. So
each cell holds one of its SLR(1) actions, or `Error` when it has none, and the table logs a
conflict exactly when some cell has two (`generateTable_eq_slr`).

The name test misfires on a user nonterminal such as `A'` with a one-symbol production, which
gets `Accept` (`accept_on_user_apostrophe`). With plain names and no conflict, `Accept` is in
exactly one cell, `(δ(0, S), $)` (`accept_iff_goto_start`).
-/

namespace Lalr1

/-- The SLR(1) actions of state `s` of `A` on `a`: `Shift(δ(s, a))` when some item has `a` after
the dot, `Reduce(p)` for every complete item of a production `p ≠ 0` with `a ∈ FOLLOW(lhs p)`,
and `Accept` when `(0, 1)` is in `s` and `a = $`. -/
inductive SlrAction (g : Grammar) (A : LR0Automaton) (s : Nat) (a : Symbol) : Action → Prop
  | shift {items : List LR0Item} {it : LR0Item} {j : Nat} : A.states[s]? = some items →
      it ∈ items → it.nextSymbol g.productions = some a → A.getTransition s a = some j →
      SlrAction g A s a (.shift j)
  | reduce {items : List LR0Item} {it : LR0Item} {q : Production} : A.states[s]? = some items →
      it ∈ items → it.isComplete g.productions = true → it.production ≠ 0 →
      g.productions[it.production]? = some q → a ∈ g.constFollowSet q.lhs →
      SlrAction g A s a (.reduce it.production)
  | accept {items : List LR0Item} : A.states[s]? = some items → (⟨0, 1⟩ : LR0Item) ∈ items →
      a = endOfInputSymbol → SlrAction g A s a .accept

namespace LALR1Generator

/-- On a built grammar with plain names and a start symbol, `augment` and the generator's
constructor succeed, with the automaton of `Spec` and production 0 the fresh `S' → [S]`. -/
theorem create_augment {g : Grammar} {S : Symbol} (hb : g.Built) (hS : g.startSymbol = some S)
    (hn : g.symbolTable.PlainNames) :
    ∃ gen, create g.augment = some gen ∧ gen.grammar = g.augment ∧
      gen.lr0Automaton.Spec g.augment.symbolTable g.augment.productions ∧
      g.augment.AugmentedShape S := by
  have hshape := hb.wf.augmentedShape hn hS
  have hne : g.augment.productions ≠ [] := fun h => by simpa [h] using hshape.zero
  obtain ⟨A, hbuild, hA⟩ := LR0Automaton.build_spec hne
  exact ⟨⟨g.augment, A⟩, by simp [create, hbuild], rfl, hA, hshape⟩

variable {gen : LALR1Generator} {S : Symbol}

/-- Actions are written only to cells of existing states and of terminals or `$`. -/
theorem cellAction_column
    (hrhs : ∀ p ∈ gen.grammar.productions, ∀ x ∈ p.rhs, x.IsGrammarSymbol) {s : Nat} {a : Symbol}
    {act : Action} (h : gen.CellAction s a act) :
    s < gen.lr0Automaton.states.length ∧ (a.isTerminal = true ∨ a = endOfInputSymbol) := by
  cases h with
  | shift hcore _ _ hterm _ => exact ⟨(List.getElem?_eq_some_iff.mp hcore).1, .inl hterm⟩
  | reduce hcore _ _ _ _ hf =>
    exact ⟨(List.getElem?_eq_some_iff.mp hcore).1, constFollowSet_content hrhs _ a hf⟩
  | accept hcore _ _ _ _ ha => exact ⟨(List.getElem?_eq_some_iff.mp hcore).1, .inr ha⟩

/-- A state holding `(0, 1)` asks for `Accept` on `$`. -/
theorem cellAction_accept_of_mem (hshape : gen.grammar.AugmentedShape S) {s : Nat} {items : List LR0Item}
    (hs : gen.lr0Automaton.states[s]? = some items) (h : (⟨0, 1⟩ : LR0Item) ∈ items) :
    gen.CellAction s endOfInputSymbol .accept :=
  .accept hs h hshape.zero (by simp [LR0Item.isComplete, rhsOf, hshape.zero])
    (by simp [Production.looksAugmented, Symbol.nonterminal, back_append_apostrophe]) rfl

variable (hA : gen.lr0Automaton.Spec gen.grammar.symbolTable gen.grammar.productions)
  (hshape : gen.grammar.AugmentedShape S)
include hA hshape

/-- In a state, the accept test passes exactly on items of production 0. -/
theorem looksAugmented_iff {j : Nat} {items : List LR0Item}
    (hj : gen.lr0Automaton.states[j]? = some items) {it : LR0Item} (hit : it ∈ items)
    {q : Production} (hq : gen.grammar.productions[it.production]? = some q) :
    q.looksAugmented = true ↔ it.production = 0 := by
  by_cases h0 : it.production = 0
  · rw [h0, hshape.zero] at hq
    cases hq
    simp [h0, Production.looksAugmented, Symbol.nonterminal, back_append_apostrophe]
  · obtain h | ⟨q', hq', hnt⟩ := hA.production_lhs hj it hit
    · exact absurd h h0
    · obtain rfl := Option.some.inj (hq'.symm.trans hq)
      simp [h0, hshape.looksAugmented_of_pos _ _ (Nat.pos_of_ne_zero h0) hq hnt]

/-- The only complete item of a state that passes the accept test is `(0, 1)`. -/
theorem eq_zero_one {j : Nat} {items : List LR0Item}
    (hj : gen.lr0Automaton.states[j]? = some items) {it : LR0Item} (hit : it ∈ items)
    {q : Production} (hq : gen.grammar.productions[it.production]? = some q)
    (hcomp : it.isComplete gen.grammar.productions = true) (hacc : q.looksAugmented = true) :
    it = ⟨0, 1⟩ := by
  have h0 := (looksAugmented_iff hA hshape hj hit hq).mp hacc
  have hvalid := mem_itemUniverse.mp (hA.valid items (List.getElem?_mem hj) hit)
  rcases it with ⟨p, d⟩
  simp only at h0
  subst h0
  simp [LR0Item.isComplete, rhsOf, hshape.zero] at hcomp hvalid
  simp only [LR0Item.mk.injEq, true_and]
  omega

variable (hrhs : ∀ p ∈ gen.grammar.productions, ∀ x ∈ p.rhs, x.IsGrammarSymbol)
include hrhs

/-- On the column of a terminal or `$`, the code's cell actions are the SLR(1) actions. -/
theorem cellAction_iff_slrAction {s : Nat} {a : Symbol}
    (ha : a.isTerminal = true ∨ a = endOfInputSymbol) {act : Action} :
    gen.CellAction s a act ↔ SlrAction gen.grammar gen.lr0Automaton s a act := by
  constructor
  · intro h
    cases h with
    | shift hcore hit hn _ hj => exact .shift hcore hit hn hj
    | reduce hcore hit hp hcomp hacc hf =>
      refine .reduce hcore hit hcomp (fun h0 => ?_) hp hf
      simp [(looksAugmented_iff hA hshape hcore hit hp).mpr h0] at hacc
    | accept hcore hit hp hcomp hacc ha' =>
      exact .accept hcore (eq_zero_one hA hshape hcore hit hp hcomp hacc ▸ hit) ha'
  · intro h
    cases h with
    | shift hcore hit hn hj =>
      refine .shift hcore hit hn (ha.resolve_right ?_) hj
      rintro rfl
      obtain ⟨p, hp, hmem⟩ := mem_rhs_of_nextSymbol hn
      simpa [Symbol.IsGrammarSymbol, endOfInputSymbol, Symbol.isTerminal, Symbol.isNonterminal]
        using hrhs p hp _ hmem
    | @reduce items it q hcore hit hcomp hne hp hf =>
      refine .reduce hcore hit hp hcomp ?_ hf
      cases hl : q.looksAugmented
      · rfl
      · exact absurd ((looksAugmented_iff hA hshape hcore hit hp).mp hl) hne
    | accept hcore hmem ha' => exact ha' ▸ cellAction_accept_of_mem hshape hcore hmem

end LALR1Generator

open LALR1Generator

/-- `E → E + T | T`, `T → num` with start symbol `E`, the grammar of
`test_lalr1_table_generation`, written as the sequence of API calls that builds it. -/
def exprGrammar : Grammar :=
  let g := ((((Grammar.new.getNonterminal "E").2.getNonterminal "T").2.getTerminal "+" .plus).2
    |>.getTerminal "num" .number).2
  (((g.addProduction (.nonterminal "E") [.nonterminal "E", .terminal "+" .plus, .nonterminal "T"])
    |>.addProduction (.nonterminal "E") [.nonterminal "T"])
    |>.addProduction (.nonterminal "T") [.terminal "num" .number]).setStartSymbol (.nonterminal "E")

theorem exprGrammar_built : exprGrammar.Built :=
  .setStartSymbol (.addProduction (.addProduction (.addProduction
    (.getTerminal _ _ (.getTerminal _ _ (.getNonterminal _ (.getNonterminal _ .new))))
    (by decide) (by decide)) (by decide) (by decide)) (by decide) (by decide)) (by decide)

/-- `generate_table` builds the SLR(1) table: every cell of an LR(0) state and a terminal or `$`
holds `Error` when it has no SLR(1) action and one of its SLR(1) actions otherwise, and the
table has a conflict exactly when some cell has two SLR(1) actions. -/
theorem generateTable_eq_slr {g : Grammar} {S : Symbol} (hb : g.Built)
    (hS : g.startSymbol = some S) (hSg : S.IsGrammarSymbol) (hn : g.symbolTable.PlainNames)
    (hrhs : ∀ p ∈ g.productions, ∀ x ∈ p.rhs, x.IsGrammarSymbol) (addr : Nat → Nat) :
    ∃ gen T, create g.augment = some gen ∧ gen.generateTable addr = .ok T ∧
      (∀ s < gen.lr0Automaton.states.length, ∀ a, a.isTerminal = true ∨ a = endOfInputSymbol →
        ((∀ act, ¬SlrAction gen.grammar gen.lr0Automaton s a act) → T.getAction s a = .error) ∧
        ((∃ act, SlrAction gen.grammar gen.lr0Automaton s a act) →
          SlrAction gen.grammar gen.lr0Automaton s a (T.getAction s a))) ∧
      (T.hasConflicts = true ↔ ∃ s < gen.lr0Automaton.states.length, ∃ a,
        (a.isTerminal = true ∨ a = endOfInputSymbol) ∧ ∃ act act', act ≠ act' ∧
          SlrAction gen.grammar gen.lr0Automaton s a act ∧
          SlrAction gen.grammar gen.lr0Automaton s a act') := by
  obtain ⟨gen, hgen, hg, hA, hshape⟩ := create_augment hb hS hn
  rw [← hg] at hA hshape
  have hrhs' : ∀ p ∈ gen.grammar.productions, ∀ x ∈ p.rhs, x.IsGrammarSymbol := by
    rw [hg, Grammar.augment_productions (hb.wf.isAugmented_eq_false hn) hS]
    intro p hp x hx
    rcases List.mem_cons.mp hp with rfl | hp
    · exact List.mem_singleton.mp hx ▸ hSg
    · exact hrhs p hp x hx
  obtain ⟨T, hT⟩ := gen.generateTable_ok addr hshape.isAugmented
  have hiff := fun {s a act} ha => @cellAction_iff_slrAction gen S hA hshape hrhs' s a ha act
  refine ⟨gen, T, hgen, hT, fun s _ a ha => ⟨fun hnone => ?_, fun ⟨act, hact⟩ => ?_⟩, ?_⟩
  · have hc := (generateTable_actionTable_eq_none hT s a).mpr fun act h => hnone act ((hiff ha).mp h)
    simp [ParseTable.getAction, hc]
  · cases hc : T.actionTable s a with
    | none => exact absurd ((hiff ha).mpr hact) ((generateTable_actionTable_eq_none hT s a).mp hc act)
    | some act' =>
      simpa [ParseTable.getAction, hc] using (hiff ha).mp (generateTable_actionTable_some hT hc)
  · have hconf := generateTable_conflicts_eq_nil_iff hT
    simp only [ParseTable.hasConflicts, Bool.not_eq_true', List.isEmpty_eq_false_iff_exists_mem]
    constructor
    · intro h
      have hne : T.conflicts ≠ [] := fun h' => by simp [h'] at h
      rw [Ne, hconf] at hne
      push_neg at hne
      obtain ⟨s, a, act, act', h1, h2, hne⟩ := hne
      obtain ⟨hs, ha⟩ := cellAction_column hrhs' h1
      exact ⟨s, hs, a, ha, act, act', hne, (hiff ha).mp h1, (hiff ha).mp h2⟩
    · rintro ⟨s, -, a, ha, act, act', hne, h1, h2⟩
      by_contra h
      exact hne (hconf.mp (List.eq_nil_iff_forall_not_mem.mpr fun x hx => h ⟨x, hx⟩) s a act act'
        ((hiff ha).mpr h1) ((hiff ha).mpr h2))

theorem generateTable_eq_slr_expr :
    ∃ gen T, create exprGrammar.augment = some gen ∧ gen.generateTable id = .ok T ∧
      (∀ s < gen.lr0Automaton.states.length, ∀ a, a.isTerminal = true ∨ a = endOfInputSymbol →
        ((∀ act, ¬SlrAction gen.grammar gen.lr0Automaton s a act) → T.getAction s a = .error) ∧
        ((∃ act, SlrAction gen.grammar gen.lr0Automaton s a act) →
          SlrAction gen.grammar gen.lr0Automaton s a (T.getAction s a))) ∧
      (T.hasConflicts = true ↔ ∃ s < gen.lr0Automaton.states.length, ∃ a,
        (a.isTerminal = true ∨ a = endOfInputSymbol) ∧ ∃ act act', act ≠ act' ∧
          SlrAction gen.grammar gen.lr0Automaton s a act ∧
          SlrAction gen.grammar gen.lr0Automaton s a act') :=
  generateTable_eq_slr exprGrammar_built rfl (by decide) (by decide) (by decide) id

/-! ## The accept cell -/

/-- With plain names, `δ(0, S)` exists, and when no conflict is logged `Accept` is in exactly one
cell, `(δ(0, S), $)`. -/
theorem accept_iff_goto_start {g : Grammar} {S : Symbol} (hb : g.Built)
    (hS : g.startSymbol = some S) (hn : g.symbolTable.PlainNames) (addr : Nat → Nat) :
    ∃ gen T, create g.augment = some gen ∧ gen.generateTable addr = .ok T ∧
      (∃ j, gen.lr0Automaton.getTransition 0 S = some j) ∧
      (T.hasConflicts = false → ∀ s a, T.getAction s a = .accept ↔
        gen.lr0Automaton.getTransition 0 S = some s ∧ a = endOfInputSymbol) := by
  obtain ⟨gen, hgen, hg, hA, hshape⟩ := create_augment hb hS hn
  rw [← hg] at hA hshape
  obtain ⟨T, hT⟩ := gen.generateTable_ok addr hshape.isAugmented
  have hzero := fun {j items} hj =>
    @LR0Automaton.Spec.mem_zero_one_iff _ _ _ hA _ S hshape.zero hshape.start_fresh j items hj
  have h00 : (⟨0, 0⟩ : LR0Item) ∈ closure gen.grammar.productions [⟨0, 0⟩] :=
    subset_closure _ (List.mem_singleton_self _)
  refine ⟨gen, T, hgen, hT, Option.isSome_iff_exists.mp (hA.complete 0 _ hA.start S
    (mem_transitionSymbols.mpr ⟨_, h00, by simp [LR0Item.nextSymbol, rhsOf, hshape.zero]⟩)),
    fun hc s a => ⟨fun h => ?_, fun ⟨hs, ha⟩ => ?_⟩⟩
  · cases hcell : T.actionTable s a with
    | none => simp [ParseTable.getAction, hcell] at h
    | some act =>
      obtain rfl : act = .accept := by simpa [ParseTable.getAction, hcell] using h
      cases generateTable_actionTable_some hT hcell with
      | accept hcore hit hp hcomp hacc ha =>
        obtain rfl := eq_zero_one hA hshape hcore hit hp hcomp hacc
        exact ⟨(hzero hcore).mp hit, ha⟩
  · subst ha
    obtain ⟨-, target, -, htarget, -⟩ := hA.sound 0 S s hs
    have hcell := cellAction_accept_of_mem hshape htarget ((hzero htarget).mpr hs)
    have hagree := (generateTable_conflicts_eq_nil_iff hT).mp
      (by simpa [ParseTable.hasConflicts] using hc)
    cases hv : T.actionTable s endOfInputSymbol with
    | none => exact absurd hcell ((generateTable_actionTable_eq_none hT s _).mp hv _)
    | some act =>
      simpa [ParseTable.getAction, hv] using hagree _ _ _ _ (generateTable_actionTable_some hT hv) hcell

theorem accept_iff_goto_start_expr :
    ∃ gen T, create exprGrammar.augment = some gen ∧ gen.generateTable id = .ok T ∧
      (∃ j, gen.lr0Automaton.getTransition 0 (.nonterminal "E") = some j) ∧
      (T.hasConflicts = false → ∀ s a, T.getAction s a = .accept ↔
        gen.lr0Automaton.getTransition 0 (.nonterminal "E") = some s ∧ a = endOfInputSymbol) :=
  accept_iff_goto_start exprGrammar_built rfl (by decide) id

/-- `S → A'`, `A' → y` with start symbol `S`: a user nonterminal whose name ends in an
apostrophe. -/
def userApostropheGrammar : Grammar :=
  let (s, g) := Grammar.new.getNonterminal "S"
  let (a, g) := g.getNonterminal "A'"
  let (y, g) := g.getTerminal "y" .identifier
  ((g.addProduction s [a]).addProduction a [y]).setStartSymbol s

/-- On `userApostropheGrammar`, whatever the allocation order, `Accept` is in two cells:
`(1, $)` (state 1 is `{S' → S•}`) and `(3, $)` (state 3 is `{A' → y•}`, which should reduce). -/
theorem accept_on_user_apostrophe (addr : Nat → Nat) :
    ∃ gen T, create userApostropheGrammar.augment = some gen ∧ gen.generateTable addr = .ok T ∧
      T.getAction 1 endOfInputSymbol = .accept ∧ T.getAction 3 endOfInputSymbol = .accept := by
  obtain ⟨gen, hgen⟩ : ∃ gen, create userApostropheGrammar.augment = some gen :=
    Option.isSome_iff_exists.mp (by decide)
  have hwrites := (by decide : (create userApostropheGrammar.augment).all (fun gen =>
    (1, endOfInputSymbol, Action.accept) ∈ gen.tableWrites id ∧
    (3, endOfInputSymbol, Action.accept) ∈ gen.tableWrites id ∧
    ∀ w ∈ gen.tableWrites id, (w.1 = 1 ∨ w.1 = 3) → w.2.1 = endOfInputSymbol →
      w.2.2 = .accept) = true)
  simp only [hgen, Option.all_some, decide_eq_true_eq] at hwrites
  obtain ⟨h1, h3, huniq⟩ := hwrites
  obtain ⟨T, hT⟩ := gen.generateTable_ok addr (by rw [grammar_of_create hgen]; decide)
  exact ⟨gen, T, hgen, hT, getAction_eq_of_tableWrites hT h1 fun w hw hs => huniq w hw (.inl hs),
    getAction_eq_of_tableWrites hT h3 fun w hw hs => huniq w hw (.inr hs)⟩

end Lalr1
