import Mathlib.Data.Finset.Card
import Lalr1.Slr

/-!
# The canonical collection

The canonical LR(0) collection is the family of item sets reachable from `closure({(0, 0)})` by
`Goto(I, X) = closure({(p, d + 1) | (p, d) ∈ I, rhs(p)[d] = X})` on the symbols `X` after a dot in
`I` (`Reachable`). `Canonical` says what a construction of it must give: pairwise different
states, state 0 the start set, the states' item sets exactly the reachable ones, and a transition
from `i` on `X` to `j` exactly when `X` is after a dot in state `i` and state `j` has the items of
`Goto(state i, X)`.

`LR0Automaton::LR0Automaton` gives this (`build_canonical`): besides `Spec`, no state it builds is
empty, since it only takes gotos on symbols after a dot (`buildLoop_nonempty`). Two automata that
meet `Canonical` are one automaton with its states renamed, state 0 fixed (`Canonical.iso`), so
neither the LIFO work list nor the order of the transition symbols changes the result beyond the
numbering of the other states.
-/

namespace Lalr1

variable {prods : List Production}

/-- `X` appears right after a dot in `I`. -/
def AfterDot (prods : List Production) (items : List LR0Item) (x : Symbol) : Prop :=
  ∃ it ∈ items, it.nextSymbol prods = some x

/-- The canonical collection: the item sets reachable from `closure({(0, 0)})` by `Goto` on a
symbol after a dot. -/
inductive Reachable (prods : List Production) : List LR0Item → Prop
  | start : Reachable prods (closure prods [⟨0, 0⟩])
  | goto {items : List LR0Item} {x : Symbol} : Reachable prods items → AfterDot prods items x →
      Reachable prods (closure prods (gotoKernel prods items x))

/-! ## Closure and goto on sets -/

theorem gotoKernel_subset_gotoKernel {I I' : List LR0Item} (h : I ⊆ I') (x : Symbol) :
    gotoKernel prods I x ⊆ gotoKernel prods I' x := fun _ hit => by
  obtain ⟨hd, hmem, hn⟩ := mem_gotoKernel.mp hit
  exact mem_gotoKernel.mpr ⟨hd, h hmem, hn⟩

/-- `Goto` of two sets with the same items has the same items. -/
theorem sameItems_goto {I I' : List LR0Item} (h : sameItems I I' = true) (x : Symbol) :
    sameItems (closure prods (gotoKernel prods I x)) (closure prods (gotoKernel prods I' x)) = true := by
  have sub : ∀ {A B : List LR0Item}, A ⊆ B →
      closure prods (gotoKernel prods A x) ⊆ closure prods (gotoKernel prods B x) := fun hAB =>
    closure_subset_closure ((gotoKernel_subset_gotoKernel hAB x).trans (subset_closure _))
  obtain ⟨h₁, h₂⟩ := sameItems_iff.mp h
  exact sameItems_iff.mpr ⟨sub h₁, sub h₂⟩

theorem AfterDot.mono {I I' : List LR0Item} {x : Symbol} (h : I ⊆ I') (hx : AfterDot prods I x) :
    AfterDot prods I' x :=
  let ⟨it, hit, hn⟩ := hx
  ⟨it, h hit, hn⟩

/-- `Goto(I, X)` is non-empty exactly when `X` is after a dot in `I`. -/
theorem afterDot_iff_exists_mem_goto {I : List LR0Item} {x : Symbol} :
    AfterDot prods I x ↔ ∃ it, it ∈ closure prods (gotoKernel prods I x) := by
  constructor
  · rintro ⟨it, hit, hn⟩
    refine ⟨it.advance, subset_closure _ (mem_gotoKernel.mpr ⟨by simp, ?_, ?_⟩)⟩ <;>
      simpa [LR0Item.advance]
  · rintro ⟨it, hit⟩
    cases hk : gotoKernel prods I x with
    | nil =>
      rw [hk] at hit
      exact absurd (closure_subset_of_closed (List.Subset.refl []) (by simp) hit) (List.not_mem_nil _)
    | cons k ks =>
      obtain ⟨-, hmem, hn⟩ := mem_gotoKernel.mp (hk ▸ List.mem_cons_self k ks)
      exact ⟨_, hmem, hn⟩

/-- A transition on `x` into `J` from `I`, read on sets: `x` after a dot in `I`, `J` = `Goto(I, x)`;
it does not change when `I` and `J` are replaced by sets with the same items. -/
theorem goto_congr {I I' J J' : List LR0Item} {x : Symbol} (hI : sameItems I I' = true)
    (hJ : sameItems J J' = true)
    (h : AfterDot prods I x ∧ sameItems J (closure prods (gotoKernel prods I x)) = true) :
    AfterDot prods I' x ∧ sameItems J' (closure prods (gotoKernel prods I' x)) = true :=
  ⟨h.1.mono (sameItems_iff.mp hI).1, sameItems_trans (sameItems_symm hJ)
    (sameItems_trans h.2 (sameItems_goto hI x))⟩

/-! ## The constructor adds no empty state -/

namespace LR0Automaton

variable {cur : Nat} {items : List LR0Item}

theorem addTransition_nonempty {st : BuildState} {x : Symbol} (hx : AfterDot prods items x)
    (hne : ∀ I ∈ st.states, I ≠ []) : ∀ I ∈ (addTransition prods cur items st x).states, I ≠ [] := by
  rcases addTransition_cases prods cur items st x with ⟨k, -, -, -, e⟩ | ⟨-, e⟩ <;> rw [e]
  · exact hne
  · intro I hI
    rcases List.mem_append.mp hI with hI | hI
    · exact hne I hI
    · obtain ⟨it, hit⟩ := afterDot_iff_exists_mem_goto.mp hx
      exact List.ne_nil_of_mem (List.mem_singleton.mp hI ▸ hit)

theorem foldl_addTransition_nonempty :
    ∀ (xs : List Symbol) (st : BuildState), (∀ x ∈ xs, AfterDot prods items x) →
      (∀ I ∈ st.states, I ≠ []) → ∀ I ∈ (xs.foldl (addTransition prods cur items) st).states, I ≠ []
  | [], _, _, hne => hne
  | x :: xs, _, hxs, hne =>
    foldl_addTransition_nonempty xs _ (fun y hy => hxs y (List.mem_cons_of_mem x hy))
      (addTransition_nonempty (hxs x (List.mem_cons_self x xs)) hne)

/-- Run lemma: the loop adds only gotos on symbols after a dot, so no empty state. -/
theorem buildLoop_nonempty (t : SymbolTable) :
    ∀ (n : Nat) (st st' : BuildState), buildLoop t prods n st = some st' →
      (∀ I ∈ st.states, I ≠ []) → ∀ I ∈ st'.states, I ≠ []
  | 0, _, _, h, _ => by cases h
  | n + 1, _, st', h, hne => by
    unfold buildLoop at h
    split at h
    · cases h
      exact hne
    · refine buildLoop_nonempty t n _ st' h (foldl_addTransition_nonempty _ _ (fun x hx => ?_) hne)
      exact mem_transitionSymbols.mp hx

theorem build_nonempty {g : Grammar} {a : LR0Automaton} (h : build g = some a) :
    ∀ I ∈ a.states, I ≠ [] := by
  unfold build at h
  split at h
  · cases h
  · obtain ⟨st, hrun, rfl⟩ := Option.map_eq_some'.mp h
    refine buildLoop_nonempty _ _ _ st hrun ?_
    intro I hI
    obtain rfl := List.mem_singleton.mp hI
    exact List.ne_nil_of_mem (subset_closure _ (List.mem_singleton_self _))

/-! ## The canonical collection -/

/-- What the canonical collection asks of an automaton: pairwise different states, state 0 the
start set, the states' item sets exactly the reachable ones, and a transition on `x` from `i` to
`j` exactly when `x` is after a dot in state `i` and state `j` has the items of `Goto(state i, x)`.
A state's id is its index. -/
structure Canonical (prods : List Production) (a : LR0Automaton) : Prop where
  distinct : a.states.Pairwise (fun I J => sameItems I J = false)
  start : a.states[0]? = some (closure prods [⟨0, 0⟩])
  reachable : ∀ I, Reachable prods I → ∃ J ∈ a.states, sameItems I J = true
  state : ∀ J ∈ a.states, ∃ I, Reachable prods I ∧ sameItems I J = true
  transition : ∀ i x j, a.getTransition i x = some j ↔ ∃ I J, a.states[i]? = some I ∧
    a.states[j]? = some J ∧ AfterDot prods I x ∧
    sameItems J (closure prods (gotoKernel prods I x)) = true

variable {t : SymbolTable} {a : LR0Automaton}

/-- An automaton meeting `Spec` without an empty state is the canonical collection. -/
theorem Spec.canonical (hA : a.Spec t prods) (hne : ∀ I ∈ a.states, I ≠ []) :
    a.Canonical prods where
  distinct := hA.distinct
  start := hA.start
  reachable I hI := by
    induction hI with
    | start => exact ⟨_, List.getElem?_mem hA.start, sameItems_self _⟩
    | @goto I x _ hx ih =>
      obtain ⟨J, hJ, hIJ⟩ := ih
      obtain ⟨s, hs⟩ := List.mem_iff_getElem?.mp hJ
      obtain ⟨k, hk⟩ := Option.isSome_iff_exists.mp (hA.complete s J hs x
        (mem_transitionSymbols.mpr (hx.mono (sameItems_iff.mp hIJ).1)))
      obtain ⟨J', target, hJ', htarget, hsame⟩ := hA.sound s x k hk
      obtain rfl := Option.some.inj (hJ'.symm.trans hs)
      exact ⟨target, List.getElem?_mem htarget,
        sameItems_trans (sameItems_goto hIJ x) (sameItems_symm hsame)⟩
  state J hJ := by
    obtain ⟨j, hj⟩ := List.mem_iff_getElem?.mp hJ
    refine hA.forall_states (fun J => J ≠ [] → ∃ I, Reachable prods I ∧ sameItems I J = true)
      (fun _ => ⟨_, .start, sameItems_self _⟩) ?_ j J hj (hne J hJ)
    intro src target x ih hsame hne'
    obtain ⟨it, hit⟩ := List.exists_mem_of_ne_nil target hne'
    have hx : AfterDot prods src x :=
      afterDot_iff_exists_mem_goto.mpr ⟨it, (sameItems_iff.mp hsame).1 hit⟩
    obtain ⟨I, hI, hIsrc⟩ := ih (let ⟨it, hit, _⟩ := hx; List.ne_nil_of_mem hit)
    exact ⟨_, .goto hI (hx.mono (sameItems_iff.mp (sameItems_symm hIsrc)).1),
      sameItems_trans (sameItems_goto hIsrc x) (sameItems_symm hsame)⟩
  transition i x j := by
    constructor
    · intro h
      obtain ⟨I, J, hI, hJ, hsame⟩ := hA.sound i x j h
      obtain ⟨it, hit⟩ := List.exists_mem_of_ne_nil J (hne J (List.getElem?_mem hJ))
      exact ⟨I, J, hI, hJ, afterDot_iff_exists_mem_goto.mpr ⟨it, (sameItems_iff.mp hsame).1 hit⟩,
        hsame⟩
    · rintro ⟨I, J, hI, hJ, hx, hsame⟩
      obtain ⟨k, hk⟩ := Option.isSome_iff_exists.mp
        (hA.complete i I hI x (mem_transitionSymbols.mpr hx))
      obtain ⟨I', K, hI', hK, hsame'⟩ := hA.sound i x k hk
      obtain rfl := Option.some.inj (hI'.symm.trans hI)
      have : k = j := hA.eq_of_sameItems hK hJ
        (sameItems_trans hsame' (sameItems_symm hsame))
      exact this ▸ hk

/-- The constructor terminates on every non-empty production list, and builds the canonical
collection. -/
theorem build_canonical {g : Grammar} (h : g.productions ≠ []) :
    ∃ a, build g = some a ∧ a.Canonical g.productions := by
  obtain ⟨a, ha, hA⟩ := build_spec h
  exact ⟨a, ha, hA.canonical (build_nonempty ha)⟩

/-! ## Uniqueness up to renaming -/

/-- `b` is `a` with each state `i` renamed `σ i`: state 0 keeps its number, the renaming is one to
one from the states of `a` onto those of `b`, a state keeps its items, and the transitions are
carried over (numbers past the states are left alone). -/
structure Renaming (a b : LR0Automaton) (σ : Nat → Nat) : Prop where
  zero : σ 0 = 0
  length : b.states.length = a.states.length
  lt : ∀ i < a.states.length, σ i < b.states.length
  injOn : ∀ i < a.states.length, ∀ j < a.states.length, σ i = σ j → i = j
  states : ∀ i I, a.states[i]? = some I → ∃ J, b.states[σ i]? = some J ∧ sameItems I J = true
  transitions : ∀ i x j, a.getTransition i x = some j ↔ b.getTransition (σ i) x = some (σ j)

namespace Canonical

variable {b : LR0Automaton} (ha : a.Canonical prods) (hb : b.Canonical prods)
include ha

/-- A transition read on the item sets of its two states. -/
theorem getTransition_iff {i j : Nat} {I J : List LR0Item} (hi : a.states[i]? = some I)
    (hj : a.states[j]? = some J) (x : Symbol) :
    a.getTransition i x = some j ↔
      AfterDot prods I x ∧ sameItems J (closure prods (gotoKernel prods I x)) = true := by
  rw [ha.transition]
  constructor
  · rintro ⟨I', J', hI', hJ', h⟩
    obtain rfl := Option.some.inj (hI'.symm.trans hi)
    obtain rfl := Option.some.inj (hJ'.symm.trans hj)
    exact h
  · exact fun h => ⟨I, J, hi, hj, h⟩

/-- Transitions join existing states. -/
theorem lt_of_getTransition {i j : Nat} {x : Symbol} (h : a.getTransition i x = some j) :
    i < a.states.length ∧ j < a.states.length := by
  obtain ⟨I, J, hI, hJ, -⟩ := (ha.transition i x j).mp h
  exact ⟨(List.getElem?_eq_some_iff.mp hI).1, (List.getElem?_eq_some_iff.mp hJ).1⟩

/-- No transition enters state 0: its items all have the dot at the start, and a goto holds an
item with the dot moved past a symbol. -/
theorem getTransition_ne_zero (s : Nat) (x : Symbol) : a.getTransition s x ≠ some 0 := by
  intro h
  obtain ⟨I, J, -, hJ, ⟨it, hit, hn⟩, hsame⟩ := (ha.transition s x 0).mp h
  obtain rfl := Option.some.inj (hJ.symm.trans ha.start)
  have hadv : it.advance ∈ closure prods (gotoKernel prods I x) :=
    subset_closure _ (mem_gotoKernel.mpr ⟨by simp, by simpa [LR0Item.advance], by simpa [LR0Item.advance]⟩)
  have hdot : ∀ it ∈ closure prods [⟨0, 0⟩], it.dotPosition = 0 :=
    forall_mem_closure (by simp) fun _ _ hc => (mem_closureCandidates.mp hc).1
  simpa using hdot _ ((sameItems_iff.mp hsame).2 hadv)

include hb

/-- Every state of `a` has the items of a state of `b`. -/
theorem exists_sameItems {I : List LR0Item} (hI : I ∈ a.states) :
    ∃ J ∈ b.states, sameItems I J = true := by
  obtain ⟨R, hR, hRI⟩ := ha.state I hI
  obtain ⟨J, hJ, hRJ⟩ := hb.reachable R hR
  exact ⟨J, hJ, sameItems_trans (sameItems_symm hRI) hRJ⟩

/-- The number in `b` of the state with the items of state `i` of `a`. -/
def rename (a b : LR0Automaton) (i : Nat) : Nat :=
  if i < a.states.length then b.states.findIdx (sameItems (a.states.getD i [])) else i

theorem rename_spec {i : Nat} {I : List LR0Item} (hi : a.states[i]? = some I) :
    ∃ J, b.states[rename a b i]? = some J ∧ sameItems I J = true := by
  have hlt := (List.getElem?_eq_some_iff.mp hi).1
  have hgetD : a.states.getD i [] = I := by simp [List.getD_eq_getElem?_getD, hi]
  obtain ⟨J, hJ, hIJ⟩ := exists_sameItems ha hb (List.getElem?_mem hi)
  have hlt' : b.states.findIdx (sameItems I) < b.states.length :=
    List.findIdx_lt_length_of_exists ⟨J, hJ, hIJ⟩
  refine ⟨_, ?_, List.findIdx_getElem (w := hlt')⟩
  simp only [rename, hlt, if_true, hgetD]
  exact List.getElem?_eq_getElem hlt'

theorem rename_lt {i : Nat} (hi : i < a.states.length) : rename a b i < b.states.length := by
  obtain ⟨J, hJ, -⟩ := rename_spec ha hb (List.getElem?_eq_getElem hi)
  exact (List.getElem?_eq_some_iff.mp hJ).1

theorem rename_injOn {i j : Nat} (hi : i < a.states.length) (hj : j < a.states.length)
    (h : rename a b i = rename a b j) : i = j := by
  obtain ⟨I, hI, hII⟩ := rename_spec ha hb (List.getElem?_eq_getElem hi)
  obtain ⟨J, hJ, hJJ⟩ := rename_spec ha hb (List.getElem?_eq_getElem hj)
  rw [h] at hI
  obtain rfl : I = J := Option.some.inj (hI.symm.trans hJ)
  exact eq_of_pairwise_sameItems ha.distinct (List.getElem?_eq_getElem hi)
    (List.getElem?_eq_getElem hj) (sameItems_trans hII (sameItems_symm hJJ))

theorem length_le : a.states.length ≤ b.states.length := by
  simpa using Finset.card_le_card_of_injOn (rename a b) (s := Finset.range a.states.length)
    (t := Finset.range b.states.length) (fun i hi => by simpa using rename_lt ha hb (by simpa using hi))
    (fun i hi j hj h => rename_injOn ha hb (by simpa using hi) (by simpa using hj) h)

/-- Two automata that build the canonical collection are one automaton with its states renamed,
state 0 fixed. -/
theorem iso : ∃ σ, Renaming a b σ := by
  have hlen : b.states.length = a.states.length := le_antisymm (length_le hb ha) (length_le ha hb)
  have h0 : 0 < a.states.length := (List.getElem?_eq_some_iff.mp ha.start).1
  refine ⟨rename a b, ?_, hlen, fun i hi => rename_lt ha hb hi,
    fun i hi j hj h => rename_injOn ha hb hi hj h, fun i I hi => rename_spec ha hb hi, ?_⟩
  · obtain ⟨J, hJ, hsame⟩ := rename_spec ha hb ha.start
    exact eq_of_pairwise_sameItems hb.distinct hJ hb.start (sameItems_symm hsame)
  · intro i x j
    by_cases hij : i < a.states.length ∧ j < a.states.length
    · obtain ⟨I', hI', hII⟩ := rename_spec ha hb (List.getElem?_eq_getElem hij.1)
      obtain ⟨J', hJ', hJJ⟩ := rename_spec ha hb (List.getElem?_eq_getElem hij.2)
      rw [ha.getTransition_iff (List.getElem?_eq_getElem hij.1) (List.getElem?_eq_getElem hij.2),
        hb.getTransition_iff hI' hJ']
      exact ⟨goto_congr hII hJJ, goto_congr (sameItems_symm hII)
        (sameItems_symm hJJ)⟩
    · have hout : ∀ k, ¬k < a.states.length → rename a b k = k := fun k hk => by simp [rename, hk]
      constructor
      · exact fun h => absurd (ha.lt_of_getTransition h) hij
      · intro h
        obtain ⟨hi, hj⟩ := hb.lt_of_getTransition h
        refine absurd ⟨?_, ?_⟩ hij <;> by_contra hk
        · rw [hout _ hk] at hi; omega
        · rw [hout _ hk] at hj; omega

end Canonical

end LR0Automaton

/-- The LR(0) constructor terminates on every augmented grammar and builds the canonical
collection, and any construction of the canonical collection gives the same automaton up to the
numbers of the states other than 0. -/
theorem lr0_canonical_collection {g : Grammar} (h : g.productions ≠ []) :
    ∃ a, LR0Automaton.build g = some a ∧ a.Canonical g.productions ∧
      ∀ b : LR0Automaton, b.Canonical g.productions → ∃ σ, LR0Automaton.Renaming a b σ := by
  obtain ⟨a, ha, hc⟩ := LR0Automaton.build_canonical h
  exact ⟨a, ha, hc, fun b hb => hc.iso hb⟩

theorem lr0_canonical_collection_expr :
    ∃ a, LR0Automaton.build exprGrammar.augment = some a ∧
      a.Canonical exprGrammar.augment.productions ∧
      ∀ b : LR0Automaton, b.Canonical exprGrammar.augment.productions →
        ∃ σ, LR0Automaton.Renaming a b σ :=
  lr0_canonical_collection (by decide)

end Lalr1
