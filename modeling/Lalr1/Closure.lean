import Lalr1.Items

/-!
# What `closure` computes

`LR0Automaton::closure` returns its input, plus items `(q, 0)` that a nonterminal after a dot
brings in, and nothing else (`mem_closure_cases`). Every round that changes something adds one
of the `|prods|` items `(q, 0)`, so the `|prods| + 1` rounds end on a set that the step no longer
changes: the result is closed (`closureCandidates_subset_closure`).
-/

namespace Lalr1

variable {prods : List Production} {items : List LR0Item} {item it : LR0Item}

theorem mem_closureCandidates :
    it ∈ closureCandidates prods item ↔ it.dotPosition = 0 ∧ ∃ x, item.nextSymbol prods = some x ∧
      x.isNonterminal = true ∧ it.production ∈ productionsFor prods x := by
  rcases it with ⟨q, d⟩
  unfold closureCandidates
  split
  · rename_i x hx
    simp only [hx, Option.some.injEq, exists_eq_left']
    split
    · rename_i hn
      simp only [List.mem_map, LR0Item.mk.injEq, hn, true_and]
      constructor
      · rintro ⟨q, hq, rfl, rfl⟩
        exact ⟨rfl, hq⟩
      · rintro ⟨rfl, hq⟩
        exact ⟨q, hq, rfl, rfl⟩
    · simp_all
  · simp_all

theorem mem_closureNew {r : List LR0Item} :
    it ∈ closureNew prods r ↔ it ∉ r ∧ ∃ item ∈ r, it ∈ closureCandidates prods item := by
  simp [closureNew, and_comm]

@[simp] theorem closurePass_fst (r : List LR0Item) :
    (closurePass prods r).1 = r ++ closureNew prods r := rfl

theorem closurePass_snd (r : List LR0Item) :
    (closurePass prods r).2 = false ↔ closureNew prods r = [] := by
  simp [closurePass]

/-- `closure` keeps its input. -/
theorem subset_closure (items : List LR0Item) : items ⊆ closure prods items :=
  whileChanged_induction (items ⊆ ·) (fun _ h => by simpa using List.subset_append_of_subset_left _ h)
    _ _ (List.Subset.refl _)

/-- An item of the closure is an input item or a candidate of an item of the closure. -/
theorem mem_closure_cases (h : it ∈ closure prods items) :
    it ∈ items ∨ ∃ item ∈ closure prods items, it ∈ closureCandidates prods item := by
  refine whileChanged_induction
    (fun r => ∀ it ∈ r, it ∈ items ∨ ∃ item ∈ r, it ∈ closureCandidates prods item)
    (fun r hr it hit => ?_) _ _ (fun it h => .inl h) it h
  rcases List.mem_append.mp hit with hit | hit
  · exact (hr it hit).imp_right fun ⟨item, hi, hc⟩ => ⟨item, List.mem_append_left _ hi, hc⟩
  · obtain ⟨-, item, hi, hc⟩ := mem_closureNew.mp hit
    exact .inr ⟨item, List.mem_append_left _ hi, hc⟩

/-- The items `(q, 0)` for the productions `q`: every item `closure` adds is one of them. -/
def dotZeroItems (prods : List Production) : List LR0Item :=
  (List.range prods.length).map (⟨·, 0⟩)

theorem mem_dotZeroItems_of_mem_closureCandidates (h : it ∈ closureCandidates prods item) :
    it ∈ dotZeroItems prods := by
  obtain ⟨hd, x, -, -, hq⟩ := mem_closureCandidates.mp h
  obtain ⟨p, hp, -⟩ := mem_productionsFor.mp hq
  have := (List.getElem?_eq_some_iff.mp hp).1
  rcases it with ⟨q, d⟩
  simp_all [dotZeroItems]

/-- A round that changes something adds an item `(q, 0)` not there before. -/
theorem closurePass_grows (r : List LR0Item) (h : (closurePass prods r).2 = true) :
    (dotZeroItems prods).countP (· ∈ r) < (dotZeroItems prods).countP (· ∈ (closurePass prods r).1) := by
  obtain ⟨it, hit⟩ := List.exists_mem_of_ne_nil _ (by simpa [closurePass] using h)
  obtain ⟨hnot, item, -, hc⟩ := mem_closureNew.mp hit
  refine countP_lt_countP (fun x _ hx => ?_) ⟨it, mem_dotZeroItems_of_mem_closureCandidates hc, ?_⟩
  · simpa using Or.inl (of_decide_eq_true hx)
  · simpa [hnot] using hit

/-- The loop of `closure` stops within its `|prods| + 1` rounds, so the bound never cuts it short,
and it stops on a set to which a round adds nothing. -/
theorem closure_stops (prods : List Production) (items : List LR0Item) :
    whileChangedStops (closurePass prods) (prods.length + 1) items = true ∧
      closureNew prods (closure prods items) = [] := by
  obtain ⟨r, -, hr, heq, hstops⟩ := whileChanged_stable (fun _ => True)
    (fun r => (dotZeroItems prods).countP (· ∈ r)) prods.length (fun _ _ => trivial)
    (fun r _ => closurePass_grows r) (fun _ _ => (List.countP_le_length _).trans (by simp [dotZeroItems]))
    (prods.length + 1) items trivial (by omega)
  have hnew := (closurePass_snd r).mp hr
  refine ⟨hstops, ?_⟩
  rw [closure, heq, closurePass_fst, hnew, List.append_nil, hnew]

/-- The result is a set on which a round changes nothing. -/
theorem closureNew_closure (prods : List Production) (items : List LR0Item) :
    closureNew prods (closure prods items) = [] :=
  (closure_stops prods items).2

/-- The closure holds the candidates of each of its items. -/
theorem closureCandidates_subset_closure (h : item ∈ closure prods items) :
    closureCandidates prods item ⊆ closure prods items := by
  intro it hc
  by_contra hnot
  have := closureNew_closure prods items
  rw [List.eq_nil_iff_forall_not_mem] at this
  exact this it (mem_closureNew.mpr ⟨hnot, item, h, hc⟩)

/-- The items `closure` adds are items `(q, 0)` of existing productions. -/
theorem mem_closure_of_not_mem (h : it ∈ closure prods items) (hn : it ∉ items) :
    it.dotPosition = 0 ∧ it.production < prods.length := by
  obtain hi | ⟨item, -, hc⟩ := mem_closure_cases h
  · exact absurd hi hn
  · have := mem_dotZeroItems_of_mem_closureCandidates hc
    simp only [dotZeroItems, List.mem_map, List.mem_range] at this
    obtain ⟨q, hq, rfl⟩ := this
    exact ⟨rfl, hq⟩

/-- A property of items that holds on the input and on every candidate holds on the closure. -/
theorem forall_mem_closure {Q : LR0Item → Prop} (hI : ∀ it ∈ items, Q it)
    (hc : ∀ item it, it ∈ closureCandidates prods item → Q it) : ∀ it ∈ closure prods items, Q it :=
  fun it h => (mem_closure_cases h).elim (hI it) fun ⟨item, _, hit⟩ => hc item it hit

/-! ## The least closed superset -/

/-- `closure` stays inside any set that holds its input and the candidates of its own items. -/
theorem closure_subset_of_closed {C : List LR0Item} (hI : items ⊆ C)
    (hC : ∀ item ∈ C, closureCandidates prods item ⊆ C) : closure prods items ⊆ C :=
  whileChanged_induction (· ⊆ C) (fun r hr it hit => by
    rcases List.mem_append.mp hit with hit | hit
    · exact hr hit
    · obtain ⟨-, item, hi, hc⟩ := mem_closureNew.mp hit
      exact hC item (hr hi) hc) _ _ hI

theorem closure_subset_closure {A B : List LR0Item} (h : A ⊆ closure prods B) :
    closure prods A ⊆ closure prods B :=
  closure_subset_of_closed h fun _ hi => closureCandidates_subset_closure hi

/-- A set of items closed under the closure rule: an item whose symbol after the dot is a
nonterminal `B` brings the item `(q, 0)` of every production `q` of `B`. -/
def ClosureClosed (prods : List Production) (C : List LR0Item) : Prop :=
  ∀ it ∈ C, ∀ B, it.nextSymbol prods = some B → B.isNonterminal = true →
    ∀ q p, prods[q]? = some p → p.lhs = B → (⟨q, 0⟩ : LR0Item) ∈ C

theorem closureClosed_iff {C : List LR0Item} :
    ClosureClosed prods C ↔ ∀ item ∈ C, closureCandidates prods item ⊆ C := by
  constructor
  · intro hC item hi ⟨q, d⟩ hit
    obtain ⟨hd, B, hB, hnt, hq⟩ := mem_closureCandidates.mp hit
    obtain ⟨p, hp, hlhs⟩ := mem_productionsFor.mp hq
    obtain rfl : d = 0 := hd
    exact hC item hi B hB hnt q p hp hlhs
  · intro hC it hit B hB hnt q p hp hlhs
    exact hC it hit (mem_closureCandidates.mpr ⟨rfl, B, hB, hnt, mem_productionsFor.mpr ⟨p, hp, hlhs⟩⟩)

/-- A closed set is its own closure: the first round adds nothing. -/
theorem closure_eq_self {C : List LR0Item} (hC : ClosureClosed prods C) : closure prods C = C := by
  have hnew : closureNew prods C = [] := List.eq_nil_iff_forall_not_mem.mpr fun it hit => by
    obtain ⟨hnot, item, hi, hc⟩ := mem_closureNew.mp hit
    exact hnot (closureClosed_iff.mp hC item hi hc)
  simp [closure, whileChanged, closurePass, hnew]

/-- `LR0Automaton::closure` stops, and returns the least set of items that holds its input and is
closed under the closure rule. So it is extensive, idempotent and monotone. -/
theorem closure_least_closed (prods : List Production) (items : List LR0Item) :
    whileChangedStops (closurePass prods) (prods.length + 1) items = true ∧
    items ⊆ closure prods items ∧ ClosureClosed prods (closure prods items) ∧
    (∀ C, items ⊆ C → ClosureClosed prods C → closure prods items ⊆ C) ∧
    closure prods (closure prods items) = closure prods items ∧
    ∀ J, items ⊆ J → closure prods items ⊆ closure prods J := by
  have hclosed : ClosureClosed prods (closure prods items) :=
    closureClosed_iff.mpr fun _ h => closureCandidates_subset_closure h
  exact ⟨(closure_stops prods items).1, subset_closure items, hclosed,
    fun C hI hC => closure_subset_of_closed hI (closureClosed_iff.mp hC), closure_eq_self hclosed,
    fun J hJ => closure_subset_closure (hJ.trans (subset_closure J))⟩

/-! ## Goto and transition symbols -/

theorem mem_gotoKernel {x : Symbol} :
    it ∈ gotoKernel prods items x ↔ 0 < it.dotPosition ∧
      (⟨it.production, it.dotPosition - 1⟩ : LR0Item) ∈ items ∧
      (⟨it.production, it.dotPosition - 1⟩ : LR0Item).nextSymbol prods = some x := by
  rcases it with ⟨p, d⟩
  simp only [gotoKernel, List.mem_map, List.mem_filter, beq_iff_eq]
  constructor
  · rintro ⟨⟨p', d'⟩, ⟨hmem, hnext⟩, h⟩
    simp only [LR0Item.advance, LR0Item.mk.injEq] at h
    obtain ⟨rfl, rfl⟩ := h
    exact ⟨by omega, by simpa using hmem, by simpa using hnext⟩
  · rintro ⟨hd, hmem, hnext⟩
    exact ⟨_, ⟨hmem, hnext⟩, by simp [LR0Item.advance]; omega⟩

/-- An item with the dot past the start in the closure of a goto kernel is in the kernel. -/
theorem mem_gotoKernel_of_mem_closure {x : Symbol}
    (h : it ∈ closure prods (gotoKernel prods items x)) (hd : 0 < it.dotPosition) :
    it ∈ gotoKernel prods items x := by
  by_contra hn
  have := (mem_closure_of_not_mem h hn).1
  omega

theorem production_of_nextSymbol {x : Symbol} (h : it.nextSymbol prods = some x) :
    ∃ p, prods[it.production]? = some p := by
  cases hp : prods[it.production]? with
  | none => simp [LR0Item.nextSymbol, rhsOf, hp] at h
  | some p => exact ⟨p, rfl⟩

/-- The symbol after a dot is a symbol of a right-hand side. -/
theorem mem_rhs_of_nextSymbol {x : Symbol} (h : it.nextSymbol prods = some x) :
    ∃ p ∈ prods, x ∈ p.rhs := by
  obtain ⟨p, hp⟩ := production_of_nextSymbol h
  have hx : p.rhs[it.dotPosition]? = some x := by simpa [LR0Item.nextSymbol, rhsOf, hp] using h
  exact ⟨p, List.getElem?_mem hp, List.getElem?_mem hx⟩

theorem mem_transitionSymbols {t : SymbolTable} {x : Symbol} :
    x ∈ transitionSymbols t prods items ↔ ∃ it ∈ items, it.nextSymbol prods = some x := by
  simp [transitionSymbols]

end Lalr1
