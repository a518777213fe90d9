import Mathlib.Data.List.Sublists
import Mathlib.Data.List.Perm.Subperm
import Lalr1.Closure
import Lalr1.Automaton

/-!
# The canonical collection

What `LR0Automaton::LR0Automaton` builds from a nonempty production list: state 0 is
`closure({(0, 0)})`; the target of a transition on `X` from `s` has the items of
`closure(Goto(s, X))`; every symbol after a dot in a state has a transition; the states are
pairwise distinct sets of items of `itemUniverse`; every state but state 0 is the closure of a
goto of a state.

The constructor's loop keeps these facts (`BuildState.Core`), and a state popped from the work
list has all its transitions (`BuildState.Complete`). Each pass pops one state and pushes as
many as it creates; since there are at most `2 ^ |itemUniverse|` distinct states, `buildFuel`
passes empty the work list (`buildLoop_spec`).
-/

namespace Lalr1

variable {t : SymbolTable} {prods : List Production}

theorem gotoKernel_subset_itemUniverse {items : List LR0Item} (x : Symbol)
    (h : items ⊆ itemUniverse prods) : gotoKernel prods items x ⊆ itemUniverse prods := by
  intro it hit
  simp only [gotoKernel, List.mem_map, List.mem_filter, beq_iff_eq] at hit
  obtain ⟨it', ⟨hmem, hnext⟩, rfl⟩ := hit
  have := mem_itemUniverse.mp (h hmem)
  have hlt : it'.dotPosition < (rhsOf prods it'.production).length := by
    by_contra hge
    simp [LR0Item.nextSymbol, List.getElem?_eq_none (Nat.le_of_not_lt hge)] at hnext
  exact mem_itemUniverse.mpr ⟨this.1, hlt⟩

theorem closure_subset_itemUniverse {items : List LR0Item} (h : items ⊆ itemUniverse prods) :
    closure prods items ⊆ itemUniverse prods := by
  intro it hit
  by_cases hin : it ∈ items
  · exact h hin
  · obtain ⟨hd, hp⟩ := mem_closure_of_not_mem hit hin
    exact mem_itemUniverse.mpr ⟨hp, by omega⟩

/-- Pairwise distinct sets of items of `itemUniverse` number at most `2 ^ |itemUniverse|`: each
is determined by the sublist of `itemUniverse` it selects. -/
theorem length_le_of_pairwise_sameItems {states : List (List LR0Item)}
    (hvalid : ∀ items ∈ states, items ⊆ itemUniverse prods)
    (hdist : states.Pairwise (fun a b => sameItems a b = false)) :
    states.length ≤ 2 ^ (itemUniverse prods).length := by
  let sel := fun (a : List LR0Item) => (itemUniverse prods).filter (· ∈ a)
  have hinj : ∀ a ∈ states, ∀ b ∈ states, sel a = sel b → sameItems a b = true := by
    intro a ha b hb hab
    have key : ∀ a ∈ states, ∀ it, it ∈ sel a ↔ it ∈ a := fun a ha it => by
      simpa [sel] using fun h => hvalid a ha h
    exact sameItems_iff.mpr ⟨fun it h => (key b hb it).mp (hab ▸ (key a ha it).mpr h),
      fun it h => (key a ha it).mp (hab ▸ (key b hb it).mpr h)⟩
  have hdist' : states.Pairwise (fun a b => a ∈ states ∧ b ∈ states ∧ sameItems a b = false) :=
    hdist.imp_of_mem fun ha hb h => ⟨ha, hb, h⟩
  have hnodup : (states.map sel).Nodup :=
    hdist'.map sel fun a b h hab => by simp [hinj a h.1 b h.2.1 hab] at h
  have hsub : states.map sel ⊆ (itemUniverse prods).sublists := by
    intro l hl
    obtain ⟨a, -, rfl⟩ := List.mem_map.mp hl
    exact List.mem_sublists.mpr (List.filter_sublist _)
  simpa [List.length_sublists] using (hnodup.subperm hsub).length_le

theorem getElem?_append_of_getElem? {α : Type} {l : List α} {i : Nat} {a : α} (l' : List α)
    (h : l[i]? = some a) : (l ++ l')[i]? = some a := by
  rw [List.getElem?_append_left (List.getElem?_eq_some_iff.mp h).1, h]

/-! ## The loop invariant -/

/-- The facts every pass of the constructor's loop keeps. -/
structure BuildState.Core (prods : List Production) (st : BuildState) : Prop where
  start : st.states[0]? = some (closure prods [⟨0, 0⟩])
  valid : ∀ items ∈ st.states, items ⊆ itemUniverse prods
  distinct : st.states.Pairwise (fun a b => sameItems a b = false)
  origin : ∀ j target, st.states[j]? = some target → j ≠ 0 → ∃ s < j, ∃ items,
    st.states[s]? = some items ∧ ∃ x, sameItems target (closure prods (gotoKernel prods items x)) = true
  sound : ∀ s x j, st.transitions s x = some j → ∃ items target, st.states[s]? = some items ∧
    st.states[j]? = some target ∧ sameItems target (closure prods (gotoKernel prods items x)) = true
  queue_lt : ∀ i ∈ st.workQueue, i < st.states.length
  queue_nodup : st.workQueue.Nodup

/-- The states popped from the work list have a transition on every symbol after a dot. -/
def BuildState.Complete (t : SymbolTable) (prods : List Production) (st : BuildState) : Prop :=
  ∀ s items, st.states[s]? = some items → s ∉ st.workQueue →
    ∀ x ∈ transitionSymbols t prods items, (st.transitions s x).isSome

/-- `st'` extends `st`: states are appended, and every new state is pushed. -/
structure BuildState.Grows (st st' : BuildState) : Prop where
  states : ∃ l, st'.states = st.states ++ l
  old_queued : ∀ i ∈ st.workQueue, i ∈ st'.workQueue
  new_queued : ∀ i, st.states.length ≤ i → i < st'.states.length → i ∈ st'.workQueue
  balance : st'.workQueue.length + st.states.length = st.workQueue.length + st'.states.length

namespace BuildState.Grows

variable {st st₁ st₂ : BuildState}

theorem refl (st : BuildState) : st.Grows st :=
  ⟨⟨[], by simp⟩, fun _ h => h, fun _ h h' => absurd h' (by omega), rfl⟩

theorem trans (h₁ : st.Grows st₁) (h₂ : st₁.Grows st₂) : st.Grows st₂ where
  states := by
    obtain ⟨l₁, e₁⟩ := h₁.states
    obtain ⟨l₂, e₂⟩ := h₂.states
    exact ⟨l₁ ++ l₂, by simp [e₂, e₁]⟩
  old_queued i h := h₂.old_queued i (h₁.old_queued i h)
  new_queued i hlo hhi := by
    by_cases hmid : i < st₁.states.length
    · exact h₂.old_queued i (h₁.new_queued i hlo hmid)
    · exact h₂.new_queued i (by omega) hhi
  balance := by have := h₁.balance; have := h₂.balance; omega

theorem getElem? (h : st.Grows st') {i : Nat} {a : List LR0Item} (hi : st.states[i]? = some a) :
    st'.states[i]? = some a := by
  obtain ⟨l, e⟩ := h.states
  rw [e]
  exact getElem?_append_of_getElem? l hi

end BuildState.Grows

namespace LR0Automaton

variable {cur : Nat} {items : List LR0Item} {st : BuildState} {x : Symbol}

/-- What one `addTransition` does: point `(cur, x)` at a state with the items of
`closure(Goto(items, x))`, or append that item set as a new state and push it. -/
theorem addTransition_cases (prods : List Production) (cur : Nat) (items : List LR0Item)
    (st : BuildState) (x : Symbol) :
    (∃ k target, st.states[k]? = some target ∧
        sameItems target (closure prods (gotoKernel prods items x)) = true ∧
        addTransition prods cur items st x =
          { st with transitions := setTransition st.transitions cur x k }) ∨
      ((∀ a ∈ st.states, sameItems a (closure prods (gotoKernel prods items x)) = false) ∧
        addTransition prods cur items st x =
          ⟨st.states ++ [closure prods (gotoKernel prods items x)],
            setTransition st.transitions cur x st.states.length, st.states.length :: st.workQueue⟩) := by
  cases hk : st.states.findIdx? (sameItems · (closure prods (gotoKernel prods items x))) with
  | some k =>
    obtain ⟨hlt, hsame, -⟩ := List.findIdx?_eq_some_iff_getElem.mp hk
    exact .inl ⟨k, _, List.getElem?_eq_getElem hlt, hsame, by simp only [addTransition, hk]⟩
  | none => exact .inr ⟨List.findIdx?_eq_none_iff.mp hk, by simp only [addTransition, hk]⟩

theorem addTransition_transitions (prods : List Production) (cur : Nat) (items : List LR0Item)
    (st : BuildState) (x : Symbol) :
    ∃ k, (addTransition prods cur items st x).transitions = setTransition st.transitions cur x k := by
  rcases addTransition_cases prods cur items st x with
    ⟨k, -, -, -, e⟩ | ⟨-, e⟩ <;> exact ⟨_, by rw [e]⟩

theorem addTransition_grows (st : BuildState) : st.Grows (addTransition prods cur items st x) := by
  rcases addTransition_cases prods cur items st x with
    ⟨k, -, -, -, e⟩ | ⟨-, e⟩ <;> rw [e]
  · exact ⟨⟨[], by simp⟩, fun _ h => h, fun _ h h' => absurd h' (by simpa using h), rfl⟩
  · exact ⟨⟨_, rfl⟩, fun i h => List.mem_cons_of_mem _ h,
      fun i hlo hhi => by simp at hhi; simp [show i = st.states.length by omega], by simp; omega⟩

theorem addTransition_core (hc : st.Core prods) (hcur : st.states[cur]? = some items) :
    (addTransition prods cur items st x).Core prods := by
  have hitems : items ∈ st.states := List.getElem?_mem hcur
  rcases addTransition_cases prods cur items st x with
    ⟨k, target, hk, hsame, e⟩ | ⟨hnew, e⟩ <;> rw [e]
  · refine { hc with sound := fun s y j h => ?_ }
    simp only [setTransition] at h
    split at h
    · obtain ⟨rfl, rfl⟩ := ‹s = cur ∧ y = x›
      cases h
      exact ⟨items, target, hcur, hk, hsame⟩
    · exact hc.sound s y j h
  · refine ⟨getElem?_append_of_getElem? _ hc.start, ?_, ?_, ?_, ?_, ?_, ?_⟩
    · simp only [List.mem_append, List.mem_singleton]
      rintro a (ha | rfl)
      · exact hc.valid a ha
      · exact closure_subset_itemUniverse (gotoKernel_subset_itemUniverse x (hc.valid _ hitems))
    · exact List.pairwise_append.mpr ⟨hc.distinct, List.pairwise_singleton _ _,
        fun a ha b hb => List.mem_singleton.mp hb ▸ hnew a ha⟩
    · intro j target hj hj0
      by_cases hlt : j < st.states.length
      · rw [List.getElem?_append_left hlt] at hj
        obtain ⟨s, hs, a, ha, y, hy⟩ := hc.origin j target hj hj0
        exact ⟨s, hs, a, getElem?_append_of_getElem? _ ha, y, hy⟩
      · rw [List.getElem?_append_right (by omega)] at hj
        have hj' : j = st.states.length := by
          have := (List.getElem?_eq_some_iff.mp hj).1
          simp at this
          omega
        subst hj'
        simp only [Nat.sub_self, List.getElem?_cons_zero, Option.some.injEq] at hj
        exact ⟨cur, (List.getElem?_eq_some_iff.mp hcur).1, items, getElem?_append_of_getElem? _ hcur,
          x, hj ▸ sameItems_self _⟩
    · intro s y j h
      simp only [setTransition] at h
      split at h
      · obtain ⟨rfl, rfl⟩ := ‹s = cur ∧ y = x›
        cases h
        exact ⟨items, _, getElem?_append_of_getElem? _ hcur, by simp, sameItems_self _⟩
      · obtain ⟨a, b, ha, hb, hab⟩ := hc.sound s y j h
        exact ⟨a, b, getElem?_append_of_getElem? _ ha, getElem?_append_of_getElem? _ hb, hab⟩
    · simp only [List.mem_cons, List.length_append, List.length_singleton]
      rintro i (rfl | hi)
      · omega
      · have := hc.queue_lt i hi; omega
    · exact List.nodup_cons.mpr ⟨fun h => by have := hc.queue_lt _ h; omega, hc.queue_nodup⟩

theorem foldl_addTransition_grows (xs : List Symbol) (st : BuildState) :
    st.Grows (xs.foldl (addTransition prods cur items) st) := by
  induction xs generalizing st with
  | nil => exact BuildState.Grows.refl st
  | cons y ys ih => exact (addTransition_grows st).trans (ih _)

theorem foldl_addTransition_core (xs : List Symbol) (hc : st.Core prods)
    (hcur : st.states[cur]? = some items) :
    (xs.foldl (addTransition prods cur items) st).Core prods := by
  induction xs generalizing st with
  | nil => exact hc
  | cons y ys ih => exact ih (addTransition_core hc hcur) ((addTransition_grows st).getElem? hcur)

theorem foldl_addTransition_of_not_mem (xs : List Symbol) (st : BuildState) {s : Nat}
    {y : Symbol} (h : s ≠ cur ∨ y ∉ xs) :
    (xs.foldl (addTransition prods cur items) st).transitions s y = st.transitions s y := by
  induction xs generalizing st with
  | nil => rfl
  | cons z zs ih =>
    rw [List.foldl_cons, ih _ (h.imp_right fun h' hm => h' (List.mem_cons_of_mem z hm))]
    obtain ⟨k, hk⟩ := addTransition_transitions prods cur items st z
    rw [hk, setTransition, if_neg]
    rintro ⟨rfl, rfl⟩
    exact h.elim (· rfl) (· (List.mem_cons_self _ _))

theorem foldl_addTransition_isSome (xs : List Symbol) (st : BuildState) {y : Symbol}
    (hy : y ∈ xs) : ((xs.foldl (addTransition prods cur items) st).transitions cur y).isSome := by
  induction xs generalizing st with
  | nil => cases hy
  | cons z zs ih =>
    by_cases hz : y ∈ zs
    · exact ih _ hz
    · obtain rfl : y = z := by simpa [hz] using hy
      rw [List.foldl_cons, foldl_addTransition_of_not_mem zs _ (.inr hz)]
      obtain ⟨k, hk⟩ := addTransition_transitions prods cur items st y
      simp [hk, setTransition]

variable {rest : List Nat}

/-- One pass of the loop pops `cur`, gives it all its transitions, and pushes exactly the states
it creates. -/
theorem buildLoop_pass (hc : st.Core prods) (hcomp : st.Complete t prods)
    (hq : st.workQueue = cur :: rest) :
    let items := st.states.getD cur []
    let st' := (transitionSymbols t prods items).foldl (addTransition prods cur items)
      { st with workQueue := rest }
    st'.Core prods ∧ st'.Complete t prods ∧
      st'.workQueue.length + st.states.length + 1 = st.workQueue.length + st'.states.length := by
  intro items st'
  have hlt : cur < st.states.length := hc.queue_lt cur (hq ▸ List.mem_cons_self _ _)
  have hcur : st.states[cur]? = some items := by
    simp [items, List.getD_eq_getElem?_getD, List.getElem?_eq_getElem hlt]
  have hnd := List.nodup_cons.mp (hq ▸ hc.queue_nodup)
  have hc₁ : BuildState.Core prods { st with workQueue := rest } :=
    { hc with
      queue_lt := fun i hi => hc.queue_lt i (hq ▸ List.mem_cons_of_mem _ hi)
      queue_nodup := hnd.2 }
  have hg : BuildState.Grows { st with workQueue := rest } st' :=
    foldl_addTransition_grows _ _
  refine ⟨foldl_addTransition_core _ hc₁ hcur, fun s a hs hnq x hx => ?_, ?_⟩
  · by_cases hscur : s = cur
    · subst hscur
      obtain rfl : a = items := Option.some.inj (hs.symm.trans (hg.getElem? hcur))
      exact foldl_addTransition_isSome _ _ hx
    · have hsold : s < st.states.length := by
        by_contra hge
        exact hnq (hg.new_queued s (by simpa using hge) (List.getElem?_eq_some_iff.mp hs).1)
      have hsq : s ∉ st.workQueue := by
        rw [hq]
        rintro (_ | ⟨_, h⟩)
        · exact hscur rfl
        · exact hnq (hg.old_queued s h)
      have hb : st.states[s]? = some st.states[s] := List.getElem?_eq_getElem hsold
      obtain rfl : a = st.states[s] := Option.some.inj (hs.symm.trans (hg.getElem? hb))
      rw [foldl_addTransition_of_not_mem _ _ (.inl hscur)]
      exact hcomp s _ hb hsq x hx
  · have := hg.balance
    simp only [hq, List.length_cons] at this ⊢
    omega

/-- The loop ends with an empty work list when its fuel exceeds `2 ^ |itemUniverse|` plus the
work list less the states. -/
theorem buildLoop_spec (t : SymbolTable) : ∀ (n : Nat) (st : BuildState), st.Core prods →
    st.Complete t prods →
    2 ^ (itemUniverse prods).length + st.workQueue.length < n + st.states.length →
    ∃ st', buildLoop t prods n st = some st' ∧ st'.Core prods ∧ st'.Complete t prods ∧
      st'.workQueue = []
  | 0, st, hc, _, hn => absurd (length_le_of_pairwise_sameItems hc.valid hc.distinct) (by omega)
  | n + 1, st, hc, hcomp, hn => by
    cases hq : st.workQueue with
    | nil => exact ⟨st, by simp [buildLoop, hq], hc, hcomp, hq⟩
    | cons cur rest =>
      obtain ⟨hc', hcomp', hbal⟩ := buildLoop_pass hc hcomp hq
      rw [buildLoop, hq]
      exact buildLoop_spec t n _ hc' hcomp' (by omega)

end LR0Automaton

/-- When the left-hand side of production 0 occurs in no right-hand side, no goto target holds the
item `(0, 0)`: the kernel has its dots past the start, and closure adds `(0, 0)` only after that
left-hand side. -/
theorem zero_not_mem_closure_gotoKernel
    (hfresh : ∀ q, prods[0]? = some q → ∀ p ∈ prods, q.lhs ∉ p.rhs) (items : List LR0Item)
    (x : Symbol) : (⟨0, 0⟩ : LR0Item) ∉ closure prods (gotoKernel prods items x) := fun hin => by
  obtain hk | ⟨item, -, hc⟩ := mem_closure_cases hin
  · exact absurd (mem_gotoKernel.mp hk).1 (by simp)
  · obtain ⟨-, y, hy, -, hp⟩ := mem_closureCandidates.mp hc
    obtain ⟨q, hq, rfl⟩ := mem_productionsFor.mp hp
    obtain ⟨r, hr⟩ := production_of_nextSymbol hy
    have hmem : q.lhs ∈ r.rhs := by
      have : q.lhs ∈ rhsOf prods item.production := List.getElem?_mem hy
      simpa [rhsOf, hr] using this
    exact hfresh q hq r (List.getElem?_mem hr) hmem

/-! ## The built automaton -/

/-- In a list of pairwise different item sets, two entries with the same items are one entry. -/
theorem eq_of_pairwise_sameItems {states : List (List LR0Item)}
    (hd : states.Pairwise (fun a b => sameItems a b = false)) {i j : Nat} {A B : List LR0Item}
    (hi : states[i]? = some A) (hj : states[j]? = some B) (h : sameItems A B = true) : i = j := by
  obtain ⟨hi', rfl⟩ := List.getElem?_eq_some_iff.mp hi
  obtain ⟨hj', rfl⟩ := List.getElem?_eq_some_iff.mp hj
  have hd := List.pairwise_iff_getElem.mp hd
  rcases Nat.lt_trichotomy i j with hij | rfl | hij
  · simp [hd i j hi' hj' hij] at h
  · rfl
  · rw [sameItems_comm] at h
    simp [hd j i hj' hi' hij] at h

/-- What `LR0Automaton::LR0Automaton` guarantees about its states and transitions. -/
structure LR0Automaton.Spec (t : SymbolTable) (prods : List Production) (a : LR0Automaton) :
    Prop where
  start : a.states[0]? = some (closure prods [⟨0, 0⟩])
  valid : ∀ items ∈ a.states, items ⊆ itemUniverse prods
  distinct : a.states.Pairwise (fun a b => sameItems a b = false)
  origin : ∀ j target, a.states[j]? = some target → j ≠ 0 → ∃ s < j, ∃ items,
    a.states[s]? = some items ∧ ∃ x, sameItems target (closure prods (gotoKernel prods items x)) = true
  sound : ∀ s x j, a.transitions s x = some j → ∃ items target, a.states[s]? = some items ∧
    a.states[j]? = some target ∧ sameItems target (closure prods (gotoKernel prods items x)) = true
  complete : ∀ s items, a.states[s]? = some items →
    ∀ x ∈ transitionSymbols t prods items, (a.transitions s x).isSome

namespace LR0Automaton

/-- The constructor succeeds on every nonempty production list, and its result meets `Spec`. -/
theorem build_spec {g : Grammar} (h : g.productions ≠ []) :
    ∃ a, build g = some a ∧ a.Spec g.symbolTable g.productions := by
  obtain ⟨p, ps, hps⟩ := List.exists_cons_of_ne_nil h
  have h0 : (⟨0, 0⟩ : LR0Item) ∈ itemUniverse g.productions :=
    mem_itemUniverse.mpr ⟨List.length_pos.mpr h, Nat.zero_le _⟩
  have hc : BuildState.Core g.productions ⟨[closure g.productions [⟨0, 0⟩]], fun _ _ => none, [0]⟩ :=
    { start := List.getElem?_cons_zero
      valid := by simpa using closure_subset_itemUniverse (by simpa using h0)
      distinct := List.pairwise_singleton _ _
      origin := fun j _ hj hj0 => (hj0 (by simpa using (List.getElem?_eq_some_iff.mp hj).1)).elim
      sound := fun _ _ _ h => Option.noConfusion h
      queue_lt := by simp
      queue_nodup := List.nodup_singleton 0 }
  have hcomp : BuildState.Complete g.symbolTable g.productions
      ⟨[closure g.productions [⟨0, 0⟩]], fun _ _ => none, [0]⟩ := by
    intro s items hs hq
    have : s < 1 := (List.getElem?_eq_some_iff.mp hs).1
    simp at hq
    omega
  obtain ⟨st, hrun, hc', hcomp', hq⟩ :=
    buildLoop_spec g.symbolTable (buildFuel g.productions) _ hc hcomp
      (by simp [buildFuel])
  refine ⟨⟨st.states, st.transitions⟩, ?_, ?_⟩
  · unfold build
    rw [hps] at hrun ⊢
    simp [hrun]
  · exact ⟨hc'.start, hc'.valid, hc'.distinct, hc'.origin, hc'.sound,
      fun s items hs => hcomp' s items hs (by simp [hq])⟩

theorem build_eq_none_iff {g : Grammar} : build g = none ↔ g.productions = [] := by
  constructor
  · intro hn
    by_contra h
    obtain ⟨a, ha, -⟩ := build_spec h
    simp [ha] at hn
  · intro h
    simp [build, h]

end LR0Automaton

/-! ## Facts about the states of a built automaton -/

namespace LR0Automaton.Spec

variable {a : LR0Automaton} (hA : a.Spec t prods)
include hA

/-- A property of item sets that holds of state 0 and passes to the closure of any goto of a
state holds of every state. -/
theorem forall_states (P : List LR0Item → Prop) (h0 : P (closure prods [⟨0, 0⟩]))
    (hstep : ∀ items target x, P items →
      sameItems target (closure prods (gotoKernel prods items x)) = true → P target) :
    ∀ (j : Nat) items, a.states[j]? = some items → P items := by
  intro j
  induction j using Nat.strong_induction_on with
  | _ j ih =>
    intro items hj
    by_cases hj0 : j = 0
    · subst hj0
      obtain rfl := Option.some.inj (hj.symm.trans hA.start)
      exact h0
    · obtain ⟨s, hs, src, hsrc, x, hx⟩ := hA.origin j items hj hj0
      exact hstep src items x (ih s hs src hsrc) hx

/-- Two states with the same items are the same state. -/
theorem eq_of_sameItems {i j : Nat} {A B : List LR0Item} (hi : a.states[i]? = some A)
    (hj : a.states[j]? = some B) (h : sameItems A B = true) : i = j :=
  eq_of_pairwise_sameItems hA.distinct hi hj h

/-- A state's items name productions that are production 0 or have a nonterminal left-hand side:
closure only brings in productions of nonterminals. -/
theorem production_lhs {j : Nat} {items : List LR0Item} (hj : a.states[j]? = some items) :
    ∀ it ∈ items, it.production = 0 ∨
      ∃ q, prods[it.production]? = some q ∧ q.lhs.isNonterminal = true := by
  have hcand : ∀ item it, it ∈ closureCandidates prods item → it.production = 0 ∨
      ∃ q, prods[it.production]? = some q ∧ q.lhs.isNonterminal = true := by
    intro item it h
    obtain ⟨-, x, -, hx, hp⟩ := mem_closureCandidates.mp h
    obtain ⟨q, hq, rfl⟩ := mem_productionsFor.mp hp
    exact .inr ⟨q, hq, hx⟩
  refine hA.forall_states (fun items => ∀ it ∈ items, it.production = 0 ∨
      ∃ q, prods[it.production]? = some q ∧ q.lhs.isNonterminal = true) ?_ ?_ j items hj
  · exact forall_mem_closure (by simp) hcand
  · intro src target x hsrc hsame it hit
    refine forall_mem_closure (fun it h => ?_) hcand it ((sameItems_iff.mp hsame).1 hit)
    obtain ⟨-, hmem, -⟩ := mem_gotoKernel.mp h
    exact hsrc ⟨it.production, it.dotPosition - 1⟩ hmem

/-- A state is closed: it holds the candidates of its items. -/
theorem mem_of_closureCandidates {j : Nat} {items : List LR0Item} (hj : a.states[j]? = some items)
    {item it : LR0Item} (hitem : item ∈ items) (hc : it ∈ closureCandidates prods item) :
    it ∈ items := by
  refine hA.forall_states (fun items => ∀ item ∈ items, closureCandidates prods item ⊆ items)
    (fun item h => closureCandidates_subset_closure h) ?_ j items hj item hitem hc
  intro src target x _ hsame item hitem
  have hsub := sameItems_iff.mp hsame
  exact (closureCandidates_subset_closure (hsub.1 hitem)).trans hsub.2

/-- The transition on the symbol after the dot of an item exists and leads to a state holding
the advanced item. -/
theorem advance_mem {s : Nat} {items : List LR0Item} (hs : a.states[s]? = some items)
    {it : LR0Item} (hit : it ∈ items) {x : Symbol} (hx : it.nextSymbol prods = some x) :
    ∃ j items', a.transitions s x = some j ∧ a.states[j]? = some items' ∧ it.advance ∈ items' := by
  obtain ⟨j, hj⟩ := Option.isSome_iff_exists.mp
    (hA.complete s items hs x (mem_transitionSymbols.mpr ⟨it, hit, hx⟩))
  obtain ⟨src, target, hsrc, htarget, hsame⟩ := hA.sound s x j hj
  obtain rfl := Option.some.inj (hsrc.symm.trans hs)
  refine ⟨j, target, hj, htarget, (sameItems_iff.mp hsame).2 (subset_closure _ ?_)⟩
  exact mem_gotoKernel.mpr ⟨by simp [LR0Item.advance], by simpa [LR0Item.advance] using hit,
    by simpa [LR0Item.advance] using hx⟩

/-- An item `(i, 0)` with `i ≠ 0` is in a state because another item of the state has the
left-hand side of `i` after its dot. -/
theorem exists_candidate_of_mem {j : Nat} {items : List LR0Item} (hj : a.states[j]? = some items)
    {i : Nat} (hit : (⟨i, 0⟩ : LR0Item) ∈ items) (hi : i ≠ 0) :
    ∃ item ∈ items, (⟨i, 0⟩ : LR0Item) ∈ closureCandidates prods item := by
  by_cases hj0 : j = 0
  · subst hj0
    obtain rfl := Option.some.inj (hj.symm.trans hA.start)
    rcases mem_closure_cases hit with h | h
    · simp [hi] at h
    · exact h
  · obtain ⟨s, -, src, -, x, hx⟩ := hA.origin j items hj hj0
    have hsub := sameItems_iff.mp hx
    rcases mem_closure_cases (hsub.1 hit) with h | ⟨item, hitem, hc⟩
    · exact absurd (mem_gotoKernel.mp h).1 (by simp)
    · exact ⟨item, hsub.2 hitem, hc⟩

/-- When the left-hand side of production 0 occurs in no right-hand side, only state 0 holds the
item `(0, 0)`. -/
theorem eq_zero_of_mem {j : Nat} {items : List LR0Item} (hj : a.states[j]? = some items)
    (hfresh : ∀ q, prods[0]? = some q → ∀ p ∈ prods, q.lhs ∉ p.rhs)
    (h : (⟨0, 0⟩ : LR0Item) ∈ items) : j = 0 := by
  by_contra hj0
  obtain ⟨s, -, src, -, x, hx⟩ := hA.origin j items hj hj0
  exact zero_not_mem_closure_gotoKernel hfresh src x ((sameItems_iff.mp hx).1 h)

/-- Under the same condition, no transition leads back to state 0. -/
theorem transitions_ne_zero (hfresh : ∀ q, prods[0]? = some q → ∀ p ∈ prods, q.lhs ∉ p.rhs)
    {s : Nat} {x : Symbol} {j : Nat} (h : a.transitions s x = some j) : j ≠ 0 := by
  rintro rfl
  obtain ⟨src, target, -, htarget, hsame⟩ := hA.sound s x 0 h
  obtain rfl := Option.some.inj (htarget.symm.trans hA.start)
  exact zero_not_mem_closure_gotoKernel hfresh src x
    ((sameItems_iff.mp hsame).1 (subset_closure _ (List.mem_singleton_self _)))

/-- When production 0 is `S' → [S]` and `S'` occurs in no right-hand side, a state holds `(0, 1)`
exactly when it is the target of the transition on `S` from state 0. -/
theorem mem_zero_one_iff {S' S : Symbol} (h0 : prods[0]? = some ⟨S', [S]⟩)
    (hfresh : ∀ p ∈ prods, S' ∉ p.rhs) {j : Nat} {items : List LR0Item}
    (hj : a.states[j]? = some items) :
    (⟨0, 1⟩ : LR0Item) ∈ items ↔ a.transitions 0 S = some j := by
  have hnext : (⟨0, 0⟩ : LR0Item).nextSymbol prods = some S := by
    simp [LR0Item.nextSymbol, rhsOf, h0]
  have h00 : (⟨0, 0⟩ : LR0Item) ∈ closure prods [⟨0, 0⟩] :=
    subset_closure _ (List.mem_singleton_self _)
  constructor
  · intro h
    have hj0 : j ≠ 0 := by
      rintro rfl
      obtain rfl := Option.some.inj (hj.symm.trans hA.start)
      simpa using (mem_closure_of_not_mem h (by simp)).1
    obtain ⟨s, -, src, hsrc, x, hx⟩ := hA.origin j items hj hj0
    obtain ⟨-, h0src, hx'⟩ :=
      mem_gotoKernel.mp (mem_gotoKernel_of_mem_closure ((sameItems_iff.mp hx).1 h) (by decide))
    have hxS : (⟨0, 0⟩ : LR0Item).nextSymbol prods = some x := hx'
    obtain rfl : S = x := Option.some.inj (hnext.symm.trans hxS)
    obtain rfl : s = 0 := hA.eq_zero_of_mem hsrc
      (fun q hq p hp => by rw [h0] at hq; cases hq; exact hfresh p hp) h0src
    obtain rfl := Option.some.inj (hsrc.symm.trans hA.start)
    obtain ⟨k, hk⟩ := Option.isSome_iff_exists.mp
      (hA.complete 0 _ hA.start S (mem_transitionSymbols.mpr ⟨_, h00, hnext⟩))
    obtain ⟨src', target, hsrc', htarget, hsame⟩ := hA.sound 0 S k hk
    obtain rfl := Option.some.inj (hsrc'.symm.trans hA.start)
    rw [hk, hA.eq_of_sameItems htarget hj (sameItems_trans hsame (sameItems_symm hx))]
  · intro h
    obtain ⟨src, target, hsrc, htarget, hsame⟩ := hA.sound 0 S j h
    obtain rfl := Option.some.inj (hsrc.symm.trans hA.start)
    obtain rfl := Option.some.inj (htarget.symm.trans hj)
    exact (sameItems_iff.mp hsame).2 (subset_closure _ (mem_gotoKernel.mpr ⟨by decide, h00, hnext⟩))

end LR0Automaton.Spec

end Lalr1
