import Mathlib.Data.List.Pairwise
import Lalr1.Collection
import Lalr1.Table

/-!
# The cells `generate_table` writes

`set_action` overwrites a cell and logs a conflict when the cell held a different action, so of
two different actions written to a cell the second stays (`setAction_keeps_last`). Over a
sequence of calls a cell ends with an action written to it, or empty when nothing was written
(`setActions_actionTable_mem`, `setActions_actionTable_eq_none`), and the log stays empty exactly
when all actions written to one cell agree (`setActions_conflicts_eq_nil_iff`).

`generate_table`'s action table and log are those of the sequence `tableWrites` of its
`set_action` calls (`generateTable_actions`), and a call writes `act` to `(s, a)` exactly when an
item of state `s` asks for it (`mem_tableWrites`).
-/

namespace Lalr1

namespace ParseTable

/-- The part of a table that `set_action` reads and writes. -/
def actions (t : ParseTable) : (Nat → Symbol → Option Action) × List String :=
  (t.actionTable, t.conflicts)

/-- A sequence of `set_action(state, terminal, action)` calls. -/
def setActions (t : ParseTable) (ws : List (Nat × Symbol × Action)) : ParseTable :=
  ws.foldl (fun t w => t.setAction w.1 w.2.1 w.2.2) t

@[simp] theorem setActions_nil (t : ParseTable) : t.setActions [] = t := rfl

@[simp] theorem setActions_cons (t : ParseTable) (s : Nat) (a : Symbol) (act : Action)
    (ws : List (Nat × Symbol × Action)) :
    t.setActions ((s, a, act) :: ws) = (t.setAction s a act).setActions ws := rfl

theorem setActions_append (t : ParseTable) (ws ws' : List (Nat × Symbol × Action)) :
    t.setActions (ws ++ ws') = (t.setActions ws).setActions ws' := List.foldl_append _ _ _ _

theorem setAction_actionTable (t : ParseTable) (s : Nat) (a : Symbol) (act : Action) (s' : Nat)
    (a' : Symbol) :
    (t.setAction s a act).actionTable s' a' =
      if s' = s ∧ a' = a then some act else t.actionTable s' a' := rfl

theorem setAction_conflicts_eq_nil_iff {t : ParseTable} {s : Nat} {a : Symbol} {act : Action} :
    (t.setAction s a act).conflicts = [] ↔
      t.conflicts = [] ∧ ∀ e, t.actionTable s a = some e → e = act := by
  unfold setAction
  split
  · split <;> simp_all
  · simp_all

/-- Of two different actions written to one cell, `set_action` keeps the second, and logs the
pair once. -/
theorem setAction_keeps_last (t : ParseTable) (s : Nat) (x : Symbol) {a b : Action} (hab : a ≠ b) :
    ((t.setAction s x a).setAction s x b).getAction s x = b ∧
      ((t.setAction s x a).setAction s x b).conflicts =
        (t.setAction s x a).conflicts ++ [conflictMessage s x a b] := by
  simp [setAction, getAction, hab]

theorem setAction_keeps_last_on_empty :
    ((empty.setAction 0 endOfInputSymbol (.shift 1)).setAction 0 endOfInputSymbol
        (.reduce 2)).getAction 0 endOfInputSymbol = .reduce 2 ∧
      ((empty.setAction 0 endOfInputSymbol (.shift 1)).setAction 0 endOfInputSymbol
        (.reduce 2)).conflicts =
        (empty.setAction 0 endOfInputSymbol (.shift 1)).conflicts ++
          [conflictMessage 0 endOfInputSymbol (.shift 1) (.reduce 2)] :=
  setAction_keeps_last empty 0 endOfInputSymbol (by decide)

@[simp] theorem setGoto_actions (t : ParseTable) (s : Nat) (x : Symbol) (j : Nat) :
    (t.setGoto s x j).actions = t.actions := rfl

theorem setAction_actions_congr {t₁ t₂ : ParseTable} (h : t₁.actions = t₂.actions) (s : Nat)
    (a : Symbol) (act : Action) : (t₁.setAction s a act).actions = (t₂.setAction s a act).actions := by
  simp only [actions, Prod.mk.injEq] at h
  simp [actions, setAction, h]

theorem setActions_actions_congr {t₁ t₂ : ParseTable} (h : t₁.actions = t₂.actions)
    (ws : List (Nat × Symbol × Action)) : (t₁.setActions ws).actions = (t₂.setActions ws).actions := by
  induction ws generalizing t₁ t₂ with
  | nil => exact h
  | cons w ws ih => exact ih (setAction_actions_congr h _ _ _)

variable {t : ParseTable} {ws : List (Nat × Symbol × Action)} {s : Nat} {a : Symbol}

/-- Writes agree pairwise exactly when any two writes to one cell agree. -/
theorem pairwise_agree_iff :
    ws.Pairwise (fun w w' => w.1 = w'.1 → w.2.1 = w'.2.1 → w.2.2 = w'.2.2) ↔
      ∀ s a act act', (s, a, act) ∈ ws → (s, a, act') ∈ ws → act = act' := by
  constructor
  · intro h s a act act' h1 h2
    refine h.forall_of_forall ?_ (fun _ _ _ _ => rfl) h1 h2 rfl rfl
    intro w w' hr h1 h2
    exact (hr h1.symm h2.symm).symm
  · intro h
    refine List.pairwise_of_forall_mem_list fun ⟨s, a, act⟩ hw ⟨s', a', act'⟩ hw' hs ha => ?_
    simp only at hs ha
    subst hs ha
    exact h s a act act' hw hw'

/-- A cell ends empty exactly when it was empty and nothing was written to it. -/
theorem setActions_actionTable_eq_none :
    (t.setActions ws).actionTable s a = none ↔
      t.actionTable s a = none ∧ ∀ w ∈ ws, ¬(s = w.1 ∧ a = w.2.1) := by
  induction ws generalizing t with
  | nil => simp
  | cons w ws ih =>
    obtain ⟨s', a', act'⟩ := w
    rw [setActions_cons, ih, setAction_actionTable]
    by_cases h : s = s' ∧ a = a'
    · refine iff_of_false (fun h' => ?_) fun h' => h'.2 _ (List.mem_cons_self _ _) h
      rw [if_pos h] at h'
      cases h'.1
    · simp only [h, if_false, List.mem_cons, forall_eq_or_imp, not_false_eq_true, true_and]

/-- A cell ends holding what it held or an action written to it. -/
theorem setActions_actionTable_mem {act : Action} (h : (t.setActions ws).actionTable s a = some act) :
    t.actionTable s a = some act ∨ (s, a, act) ∈ ws := by
  induction ws generalizing t with
  | nil => exact .inl h
  | cons w ws ih =>
    obtain ⟨s', a', act'⟩ := w
    rcases ih h with h' | h'
    · rw [setAction_actionTable] at h'
      split at h'
      · obtain ⟨rfl, rfl⟩ := ‹s = s' ∧ a = a'›
        cases h'
        exact .inr (List.mem_cons_self _ _)
      · exact .inl h'
    · exact .inr (List.mem_cons_of_mem _ h')

/-- The log gains nothing exactly when every write agrees with the action its cell held before
the sequence, and any two writes to one cell agree. -/
theorem setActions_conflicts_eq_nil_iff :
    (t.setActions ws).conflicts = [] ↔ t.conflicts = [] ∧
      (∀ w ∈ ws, ∀ e, t.actionTable w.1 w.2.1 = some e → e = w.2.2) ∧
      ws.Pairwise (fun w w' => w.1 = w'.1 → w.2.1 = w'.2.1 → w.2.2 = w'.2.2) := by
  induction ws generalizing t with
  | nil => simp
  | cons w ws ih =>
    obtain ⟨s', a', act'⟩ := w
    simp only [setActions_cons, ih, setAction_conflicts_eq_nil_iff, setAction_actionTable,
      List.pairwise_cons, List.mem_cons, forall_eq_or_imp]
    constructor
    · rintro ⟨⟨h0, h1⟩, h2, h3⟩
      refine ⟨h0, ⟨h1, fun w hw e he => ?_⟩, fun w hw hs ha => ?_, h3⟩
      · by_cases hc : w.1 = s' ∧ w.2.1 = a'
        · rw [← hc.1, ← hc.2] at h1
          exact (h1 e he).trans (h2 w hw act' (by simp [hc]))
        · exact h2 w hw e (by simpa [hc] using he)
      · exact h2 w hw act' (by simp [hs, ha])
    · rintro ⟨h0, ⟨h1, h2⟩, h3, h4⟩
      refine ⟨⟨h0, h1⟩, fun w hw e he => ?_, h4⟩
      by_cases hc : w.1 = s' ∧ w.2.1 = a'
      · simp only [hc, and_self, if_true, Option.some.injEq] at he
        exact he ▸ h3 w hw hc.1.symm hc.2.symm
      · exact h2 w hw e (by simpa [hc] using he)

end ParseTable

namespace LALR1Generator

variable (gen : LALR1Generator) (addr : Nat → Nat)

/-- The `set_action` calls for one state: its LR(1) items in set order, each with its action. -/
def stateWrites (st : LALRState) : List (Nat × Symbol × Action) :=
  ((st.items.insertionSort (fun a b => itemBefore gen.grammar.symbolTable addr a b = true)).filterMap
    (gen.itemAction st.id)).map fun w => (st.id, w)

/-- All `set_action` calls of `generate_table`, state by state. -/
def tableWrites : List (Nat × Symbol × Action) := gen.buildLalrStates.flatMap (gen.stateWrites addr)

theorem foldl_fillItem (sid : Nat) (items : List LR1Item) (t : ParseTable) :
    items.foldl (gen.fillItem sid) t =
      t.setActions ((items.filterMap (gen.itemAction sid)).map fun w => (sid, w)) := by
  induction items generalizing t with
  | nil => rfl
  | cons it items ih =>
    rw [List.foldl_cons, ih]
    unfold fillItem
    cases h : gen.itemAction sid it with
    | none => simp [h]
    | some w =>
      obtain ⟨a, act⟩ := w
      simp [h]

@[simp] theorem fillGoto_actions (sid : Nat) (t : ParseTable) (x : Symbol) :
    (gen.fillGoto sid t x).actions = t.actions := by
  unfold fillGoto
  split
  · split <;> simp
  · rfl

theorem foldl_fillGoto_actions (sid : Nat) :
    ∀ (xs : List Symbol) (t : ParseTable), (xs.foldl (gen.fillGoto sid) t).actions = t.actions
  | [], _ => rfl
  | x :: xs, t => by rw [List.foldl_cons, foldl_fillGoto_actions sid xs, fillGoto_actions]

theorem fillState_actions (t : ParseTable) (st : LALRState) :
    (gen.fillState addr t st).actions = (t.setActions (gen.stateWrites addr st)).actions := by
  rw [fillState, foldl_fillGoto_actions, foldl_fillItem]
  rfl

theorem generateTable_ok (h : gen.grammar.isAugmented = true) :
    ∃ T, gen.generateTable addr = .ok T :=
  ⟨gen.buildLalrStates.foldl (gen.fillState addr) ParseTable.empty, by simp [generateTable, h]⟩

/-- The action table and conflict log of `generate_table` are those the sequence `tableWrites`
leaves in an empty table. -/
theorem generateTable_actions {T : ParseTable} (hT : gen.generateTable addr = .ok T) :
    T.actions = (ParseTable.empty.setActions (gen.tableWrites addr)).actions := by
  have key : ∀ (sts : List LALRState) (t t' : ParseTable), t.actions = t'.actions →
      (sts.foldl (gen.fillState addr) t).actions =
        (t'.setActions (sts.flatMap (gen.stateWrites addr))).actions := by
    intro sts
    induction sts with
    | nil => exact fun _ _ h => h
    | cons st sts ih =>
      intro t t' ht
      rw [List.foldl_cons, List.flatMap_cons, ParseTable.setActions_append]
      exact ih _ _ ((gen.fillState_actions addr t st).trans
        (ParseTable.setActions_actions_congr ht _))
  unfold generateTable at hT
  split at hT
  · cases hT
  · cases hT
    exact key _ _ _ rfl

theorem mem_tableWrites {s : Nat} {a : Symbol} {act : Action} :
    (s, a, act) ∈ gen.tableWrites addr ↔ ∃ core, gen.lr0Automaton.states[s]? = some core ∧
      ∃ c ∈ core, ∃ la ∈ itemLookaheads gen.grammar c,
        gen.itemAction s ⟨c.production, c.dotPosition, la⟩ = some (a, act) := by
  simp only [tableWrites, stateWrites, buildLalrStates, List.mem_flatMap, List.mem_map,
    List.mem_filterMap, List.mem_insertionSort, Prod.exists, Prod.mk.injEq]
  constructor
  · rintro ⟨_, ⟨i, core, hic, rfl⟩, _, _, ⟨it, hit, hact⟩, rfl, rfl, rfl⟩
    simp only [List.mem_flatMap, List.mem_map] at hit
    obtain ⟨c, hc, la, hla, rfl⟩ := hit
    exact ⟨core, List.mem_enum_iff_getElem?.mp hic, c, hc, la, hla, hact⟩
  · rintro ⟨core, hcore, c, hc, la, hla, hact⟩
    exact ⟨_, ⟨s, core, List.mem_enum_iff_getElem?.mpr hcore, rfl⟩, a, act,
      ⟨_, List.mem_flatMap.mpr ⟨c, hc, List.mem_map.mpr ⟨la, hla, rfl⟩⟩, hact⟩, rfl, rfl, rfl⟩

/-- The writes read the automaton only through its states and its transitions on the terminals
after a dot: two generators of one grammar that agree there ask for the same writes. -/
theorem mem_tableWrites_congr {gen' : LALR1Generator} (hg : gen.grammar = gen'.grammar)
    (hs : gen.lr0Automaton.states = gen'.lr0Automaton.states)
    (ht : ∀ s core, gen.lr0Automaton.states[s]? = some core → ∀ c ∈ core, ∀ x,
      c.nextSymbol gen.grammar.productions = some x → x.isTerminal = true →
      gen.lr0Automaton.getTransition s x = gen'.lr0Automaton.getTransition s x)
    (w : Nat × Symbol × Action) : w ∈ gen.tableWrites addr ↔ w ∈ gen'.tableWrites addr := by
  obtain ⟨s, a, act⟩ := w
  have key : ∀ core, gen.lr0Automaton.states[s]? = some core → ∀ c ∈ core, ∀ la,
      gen.itemAction s ⟨c.production, c.dotPosition, la⟩ =
        gen'.itemAction s ⟨c.production, c.dotPosition, la⟩ := by
    rintro core hcore ⟨i, d⟩ hc la
    simp only [itemAction, LR1Item.core, ← hg]
    cases hx : LR0Item.nextSymbol gen.grammar.productions ⟨i, d⟩ with
    | none => simp
    | some x =>
      by_cases hterm : x.isTerminal = true
      · simp [ht s core hcore _ hc x hx hterm]
      · simp [hterm]
  rw [mem_tableWrites, mem_tableWrites, ← hs, ← hg]
  refine exists_congr fun core => and_congr_right fun hcore => ?_
  constructor
  · rintro ⟨c, hc, la, hla, h⟩
    exact ⟨c, hc, la, hla, (key core hcore c hc la).symm.trans h⟩
  · rintro ⟨c, hc, la, hla, h⟩
    exact ⟨c, hc, la, hla, (key core hcore c hc la).trans h⟩

/-- The actions the items of state `s` ask `generate_table` to write to the cell `(s, a)`:
`Accept` on `$` for a complete item that passes the accept test, `Reduce` on each terminal of
`FOLLOW(lhs)` for any other complete item, `Shift` to the transition on a terminal after a dot. -/
inductive CellAction (s : Nat) (a : Symbol) : Action → Prop
  | accept {core : List LR0Item} {it : LR0Item} {p : Production} :
      gen.lr0Automaton.states[s]? = some core → it ∈ core →
      gen.grammar.productions[it.production]? = some p →
      it.isComplete gen.grammar.productions = true → p.looksAugmented = true →
      a = endOfInputSymbol → CellAction s a .accept
  | reduce {core : List LR0Item} {it : LR0Item} {p : Production} :
      gen.lr0Automaton.states[s]? = some core → it ∈ core →
      gen.grammar.productions[it.production]? = some p →
      it.isComplete gen.grammar.productions = true → p.looksAugmented = false →
      a ∈ gen.grammar.constFollowSet p.lhs → CellAction s a (.reduce it.production)
  | shift {core : List LR0Item} {it : LR0Item} {j : Nat} :
      gen.lr0Automaton.states[s]? = some core → it ∈ core →
      it.nextSymbol gen.grammar.productions = some a → a.isTerminal = true →
      gen.lr0Automaton.getTransition s a = some j → CellAction s a (.shift j)

/-- A call of `tableWrites` writes `act` to `(s, a)` exactly when an item of state `s` asks for
it. -/
theorem mem_tableWrites_iff {s : Nat} {a : Symbol} {act : Action} :
    (s, a, act) ∈ gen.tableWrites addr ↔ gen.CellAction s a act := by
  rw [mem_tableWrites]
  constructor
  · rintro ⟨core, hcore, ⟨q, d⟩, hc, la, hla, hact⟩
    unfold itemAction at hact
    unfold itemLookaheads at hla
    cases hp : gen.grammar.productions[q]? with
    | none => simp [hp] at hact
    | some p =>
      simp only [hp, LR1Item.core] at hact hla
      by_cases hcomp : (⟨q, d⟩ : LR0Item).isComplete gen.grammar.productions = true
      · simp only [hcomp, if_true] at hact hla
        cases hacc : p.looksAugmented
        · simp only [hacc, Bool.false_eq_true, if_false, Option.some.injEq, Prod.mk.injEq] at hact hla
          obtain ⟨rfl, rfl⟩ := hact
          exact .reduce hcore hc hp hcomp hacc hla
        · simp only [hacc, if_true, Option.some.injEq, Prod.mk.injEq, List.mem_singleton] at hact hla
          obtain ⟨rfl, rfl⟩ := hact
          exact .accept hcore hc hp hcomp hacc hla
      · simp only [hcomp, Bool.false_eq_true, if_false] at hact hla
        cases hn : (⟨q, d⟩ : LR0Item).nextSymbol gen.grammar.productions with
        | none => exact absurd ((LR0Item.nextSymbol_eq_none_iff _ _).mp hn) hcomp
        | some x =>
          simp only [hn] at hact
          split at hact
          · obtain ⟨j, hj, hx⟩ := Option.map_eq_some'.mp hact
            cases hx
            exact .shift hcore hc hn ‹_› hj
          · simp at hact
  · intro h
    cases h with
    | @accept core it p hcore hit hp hcomp hacc ha =>
      refine ⟨core, hcore, it, hit, a, ?_, ?_⟩ <;>
        simp [itemAction, itemLookaheads, LR1Item.core, hp, hcomp, hacc, ha]
    | @reduce core it p hcore hit hp hcomp hacc ha =>
      refine ⟨core, hcore, it, hit, a, ?_, ?_⟩ <;>
        simp [itemAction, itemLookaheads, LR1Item.core, hp, hcomp, hacc, ha]
    | @shift core it j hcore hit hn hterm hj =>
      obtain ⟨p, hp⟩ := production_of_nextSymbol hn
      have hcomp : it.isComplete gen.grammar.productions = false := by
        cases h : it.isComplete gen.grammar.productions
        · rfl
        · simp [(LR0Item.nextSymbol_eq_none_iff _ _).mpr h] at hn
      refine ⟨core, hcore, it, hit, a, ?_, ?_⟩ <;>
        simp [itemAction, itemLookaheads, LR1Item.core, hp, hcomp, hn, hterm, hj]

/-! ## Goto entries -/

@[simp] theorem setActions_gotoTable (t : ParseTable) (ws : List (Nat × Symbol × Action)) :
    (t.setActions ws).gotoTable = t.gotoTable := by
  induction ws generalizing t with
  | nil => rfl
  | cons w ws ih => exact ih _

theorem fillGoto_gotoTable (sid : Nat) (t : ParseTable) (x : Symbol) (s : Nat) (X : Symbol) :
    (gen.fillGoto sid t x).gotoTable s X =
      if s = sid ∧ X = x ∧ x.isNonterminal = true ∧ (gen.lr0Automaton.getTransition sid x).isSome
      then gen.lr0Automaton.getTransition sid x else t.gotoTable s X := by
  unfold fillGoto
  split
  · cases h : gen.lr0Automaton.getTransition sid x with
    | none => simp
    | some j =>
      simp only [ParseTable.setGoto, Option.isSome_some, and_true]
      split_ifs <;> simp_all
  · split_ifs <;> simp_all

/-- The goto entry of `(s, X)` after one state's rows: the transition, when `X` is a nonterminal
among the state's transition symbols and the transition exists. -/
theorem fillState_gotoTable (t : ParseTable) (st : LALRState) (s : Nat) (X : Symbol) :
    (gen.fillState addr t st).gotoTable s X =
      if s = st.id ∧ X ∈ st.transitionSymbols gen.grammar.symbolTable gen.grammar.productions ∧
        X.isNonterminal = true ∧ (gen.lr0Automaton.getTransition st.id X).isSome
      then gen.lr0Automaton.getTransition st.id X else t.gotoTable s X := by
  have key : ∀ (xs : List Symbol) (t : ParseTable), (xs.foldl (gen.fillGoto st.id) t).gotoTable s X =
      if s = st.id ∧ X ∈ xs ∧ X.isNonterminal = true ∧
        (gen.lr0Automaton.getTransition st.id X).isSome
      then gen.lr0Automaton.getTransition st.id X else t.gotoTable s X := by
    intro xs
    induction xs with
    | nil => simp
    | cons x xs ih =>
      intro t
      rw [List.foldl_cons, ih, fillGoto_gotoTable]
      by_cases hx : X = x
      · subst hx
        by_cases hc : s = st.id ∧ X.isNonterminal = true ∧
            (gen.lr0Automaton.getTransition st.id X).isSome
        · simp [hc]
        · have hn : ∀ P : Prop, ¬(s = st.id ∧ P ∧ X.isNonterminal = true ∧
              (gen.lr0Automaton.getTransition st.id X).isSome) := fun _ h => hc ⟨h.1, h.2.2⟩
          simp only [hn, if_false]
      · simp [hx]
  rw [fillState, key, foldl_fillItem, setActions_gotoTable]

variable {gen addr} {T : ParseTable}

/-- The goto entry of `(s, X)`: the automaton's transition, when `X` is a nonterminal after a dot
among the LR(1) items of state `s` and the transition exists; empty otherwise. -/
theorem generateTable_getGoto (hT : gen.generateTable addr = .ok T) (s : Nat) (X : Symbol) :
    T.getGoto s X =
      if (∃ st ∈ gen.buildLalrStates, st.id = s ∧
          X ∈ st.transitionSymbols gen.grammar.symbolTable gen.grammar.productions) ∧
        X.isNonterminal = true ∧ (gen.lr0Automaton.getTransition s X).isSome
      then gen.lr0Automaton.getTransition s X else none := by
  have key : ∀ (sts : List LALRState) (t : ParseTable),
      (sts.foldl (gen.fillState addr) t).gotoTable s X =
        if (∃ st ∈ sts, st.id = s ∧
            X ∈ st.transitionSymbols gen.grammar.symbolTable gen.grammar.productions) ∧
          X.isNonterminal = true ∧ (gen.lr0Automaton.getTransition s X).isSome
        then gen.lr0Automaton.getTransition s X else t.gotoTable s X := by
    intro sts
    induction sts with
    | nil => simp
    | cons st sts ih =>
      intro t
      rw [List.foldl_cons, ih, fillState_gotoTable]
      simp only [List.mem_cons, exists_eq_or_imp]
      by_cases h1 : (∃ st' ∈ sts, st'.id = s ∧
          X ∈ st'.transitionSymbols gen.grammar.symbolTable gen.grammar.productions) ∧
          X.isNonterminal = true ∧ (gen.lr0Automaton.getTransition s X).isSome
      · rw [if_pos h1, if_pos ⟨.inr h1.1, h1.2⟩]
      · rw [if_neg h1]
        by_cases h2 : s = st.id ∧
            X ∈ st.transitionSymbols gen.grammar.symbolTable gen.grammar.productions ∧
            X.isNonterminal = true ∧ (gen.lr0Automaton.getTransition st.id X).isSome
        · obtain ⟨rfl, h2⟩ := h2
          rw [if_pos ⟨rfl, h2⟩, if_pos ⟨.inl ⟨rfl, h2.1⟩, h2.2⟩]
        · rw [if_neg h2, if_neg]
          rintro ⟨h | h, hC⟩
          · obtain ⟨rfl, hX⟩ := h
            exact h2 ⟨rfl, hX, hC⟩
          · exact h1 ⟨h, hC⟩
  unfold generateTable at hT
  split at hT
  · cases hT
  · cases hT
    simp only [ParseTable.getGoto, key]
    rfl

/-- A cell of the generated table is empty exactly when no item asks for an action in it. -/
theorem generateTable_actionTable_eq_none (hT : gen.generateTable addr = .ok T) (s : Nat)
    (a : Symbol) : T.actionTable s a = none ↔ ∀ act, ¬gen.CellAction s a act := by
  have h := congrArg Prod.fst (generateTable_actions gen addr hT)
  simp only [ParseTable.actions] at h
  rw [h, ParseTable.setActions_actionTable_eq_none]
  simp only [ParseTable.empty, true_and]
  constructor
  · intro hw act hact
    exact hw _ ((mem_tableWrites_iff gen addr).mpr hact) ⟨rfl, rfl⟩
  · rintro hn ⟨s', a', act⟩ hw ⟨rfl, rfl⟩
    exact hn act ((mem_tableWrites_iff gen addr).mp hw)

/-- A cell of the generated table holds an action some item of its state asks for. -/
theorem generateTable_actionTable_some (hT : gen.generateTable addr = .ok T) {s : Nat}
    {a : Symbol} {act : Action} (h : T.actionTable s a = some act) : gen.CellAction s a act := by
  have hT' := congrArg Prod.fst (generateTable_actions gen addr hT)
  simp only [ParseTable.actions] at hT'
  rw [hT'] at h
  rcases ParseTable.setActions_actionTable_mem h with h | h
  · cases h
  · exact (mem_tableWrites_iff gen addr).mp h

/-- The generated table logs no conflict exactly when no cell is asked for two different
actions. -/
theorem generateTable_conflicts_eq_nil_iff (hT : gen.generateTable addr = .ok T) :
    T.conflicts = [] ↔ ∀ s a act act', gen.CellAction s a act → gen.CellAction s a act' →
      act = act' := by
  have h := congrArg Prod.snd (generateTable_actions gen addr hT)
  simp only [ParseTable.actions] at h
  rw [h, ParseTable.setActions_conflicts_eq_nil_iff, ParseTable.pairwise_agree_iff]
  simp only [ParseTable.empty, mem_tableWrites_iff]
  simp

/-- A cell that every write to it in some order of the items asks to hold `act` holds `act`. -/
theorem getAction_eq_of_tableWrites (hT : gen.generateTable addr = .ok T) {addr' : Nat → Nat}
    {s : Nat} {a : Symbol} {act : Action} (hmem : (s, a, act) ∈ gen.tableWrites addr')
    (huniq : ∀ w ∈ gen.tableWrites addr', w.1 = s → w.2.1 = a → w.2.2 = act) :
    T.getAction s a = act := by
  cases hc : T.actionTable s a with
  | none =>
    exact absurd ((mem_tableWrites_iff gen addr').mp hmem)
      ((generateTable_actionTable_eq_none hT s a).mp hc act)
  | some act' =>
    have hw := (mem_tableWrites_iff gen addr').mpr (generateTable_actionTable_some hT hc)
    simpa [ParseTable.getAction, hc] using huniq _ hw rfl rfl

/-- In a table without conflicts, a cell holds the action its items ask for. -/
theorem getAction_of_cellAction (hT : gen.generateTable addr = .ok T) (hconf : T.conflicts = [])
    {s : Nat} {a : Symbol} {act : Action} (h : gen.CellAction s a act) : T.getAction s a = act := by
  cases hc : T.actionTable s a with
  | none => exact absurd h ((generateTable_actionTable_eq_none hT s a).mp hc act)
  | some act' =>
    have h' := generateTable_actionTable_some hT hc
    simpa [ParseTable.getAction, hc] using
      (generateTable_conflicts_eq_nil_iff hT).mp hconf s a act' act h' h

/-- A cell that an item asks to hold `act`, and for which every item asks `act`, holds `act`. -/
theorem getAction_of_cellAction_unique (hT : gen.generateTable addr = .ok T) {s : Nat} {a : Symbol}
    {act : Action} (h : gen.CellAction s a act) (huniq : ∀ act', gen.CellAction s a act' → act' = act) :
    T.getAction s a = act :=
  getAction_eq_of_tableWrites hT ((mem_tableWrites_iff gen addr).mpr h) fun ⟨_, _, act'⟩ hw hs ha => by
    subst hs ha
    exact huniq act' ((mem_tableWrites_iff gen addr).mp hw)

theorem grammar_of_create {g : Grammar} (h : create g = some gen) : gen.grammar = g := by
  simp only [create, Option.map_eq_some'] at h
  obtain ⟨A, -, rfl⟩ := h
  rfl

end LALR1Generator

end Lalr1
