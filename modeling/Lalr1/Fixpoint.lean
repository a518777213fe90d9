import Mathlib.Algebra.Order.BigOperators.Group.List
import Mathlib.Algebra.Order.Group.Nat
import Mathlib.Data.List.Lattice
import Mathlib.Data.List.Perm.Subperm
import Lalr1.FirstFollow

/-!
# The analyses reach their fixpoints

`compute_epsilon_derivers`, `compute_first_sets` and `compute_follow_sets` run passes until a pass
changes nothing. Each step of a pass adds to one set only and or's its own change into the flag
(`FlagStep`), so a pass that reports no change left every set as it was, and each of its steps
found its set closed. A changing pass makes a bounded measure grow (the nullable left-hand sides,
or the sizes of the sets, which stay duplicate-free within the terminals, ε and `$`), so the fuel
of the model is enough, and the results are closed under the rules of their passes:
`computeEpsilonDerivers_closed`, `computeFirstSets_closed`, `computeFollowSets_closed`.
-/

namespace Lalr1

/-! ## Passes that thread a flag -/

/-- A step of a pass that threads a `changed` flag: it or's its own flag into the one it is
given, its result does not depend on that flag, and a step that reports no change changes
nothing. -/
structure FlagStep {σ α : Type} (step : σ × Bool → α → σ × Bool) : Prop where
  flag : ∀ s b x, step (s, b) x = ((step (s, false) x).1, b || (step (s, false) x).2)
  quiet : ∀ s x, (step (s, false) x).2 = false → (step (s, false) x).1 = s

namespace FlagStep

variable {σ α : Type} {step : σ × Bool → α → σ × Bool}

theorem foldl_flag (h : FlagStep step) : ∀ (l : List α) (s : σ) (b : Bool),
    l.foldl step (s, b) = ((l.foldl step (s, false)).1, b || (l.foldl step (s, false)).2)
  | [], _, _ => by simp
  | x :: l, s, b => by
    rw [List.foldl_cons, List.foldl_cons, h.flag s b x]
    conv_rhs => rw [h.flag s false x]
    rw [foldl_flag h l _ (b || _), foldl_flag h l _ (false || _)]
    simp [Bool.or_assoc]

theorem foldl_cons_flag (h : FlagStep step) (x : α) (l : List α) (s : σ) :
    (x :: l).foldl step (s, false) =
      ((l.foldl step ((step (s, false) x).1, false)).1,
        (step (s, false) x).2 || (l.foldl step ((step (s, false) x).1, false)).2) :=
  foldl_flag h l (step (s, false) x).1 (step (s, false) x).2

/-- A pass that reports no change left the state as it was, and none of its steps reported a
change. -/
theorem foldl_quiet (h : FlagStep step) : ∀ (l : List α) (s : σ),
    (l.foldl step (s, false)).2 = false →
      (l.foldl step (s, false)).1 = s ∧ ∀ x ∈ l, (step (s, false) x).2 = false
  | [], _, _ => ⟨rfl, by simp⟩
  | x :: l, s, hq => by
    rw [foldl_cons_flag h, Bool.or_eq_false_iff] at hq
    rw [foldl_cons_flag h]
    have hs := h.quiet s x hq.1
    rw [hs] at hq ⊢
    obtain ⟨h1, h2⟩ := foldl_quiet h l s hq.2
    exact ⟨h1, fun y hy => (List.mem_cons.mp hy).elim (fun e => e ▸ hq.1) (h2 y)⟩

/-- A pass keeps an invariant that each step keeps, and a measure that no step lowers does not
drop; it grows strictly when the pass reports a change, if every step reporting one makes it
grow. -/
theorem foldl_grows (h : FlagStep step) (Inv : σ → Prop) (μ : σ → Nat) :
    ∀ (l : List α), (∀ s, ∀ x ∈ l, Inv s → Inv (step (s, false) x).1) →
      (∀ s, ∀ x ∈ l, Inv s → μ s ≤ μ (step (s, false) x).1) →
      (∀ s, ∀ x ∈ l, Inv s → (step (s, false) x).2 = true → μ s < μ (step (s, false) x).1) →
      ∀ s, Inv s → Inv (l.foldl step (s, false)).1 ∧ μ s ≤ μ (l.foldl step (s, false)).1 ∧
        ((l.foldl step (s, false)).2 = true → μ s < μ (l.foldl step (s, false)).1)
  | [], _, _, _, s, hs => ⟨hs, le_rfl, by simp⟩
  | x :: l, hinv, hmono, hlt, s, hs => by
    have hx := List.mem_cons_self x l
    have htail : ∀ y ∈ l, y ∈ x :: l := fun y => List.mem_cons_of_mem x
    obtain ⟨h1, h2, h3⟩ := foldl_grows h Inv μ l (fun s y hy => hinv s y (htail y hy))
      (fun s y hy => hmono s y (htail y hy)) (fun s y hy => hlt s y (htail y hy))
      _ (hinv s x hx hs)
    have h0 := hmono s x hx hs
    have h0' := hlt s x hx hs
    rw [foldl_cons_flag h]
    refine ⟨h1, le_trans h0 h2, fun hc => ?_⟩
    rcases Bool.or_eq_true_iff.mp hc with hc | hc
    · exact lt_of_lt_of_le (h0' hc) h2
    · exact lt_of_le_of_lt h0 (h3 hc)

/-- A loop of such passes, given more passes than the bound on the measure leaves room for, stops
on a state that satisfies the invariant and on which no step reports a change. -/
theorem whileChanged_closed (h : FlagStep step) (l : List α) (Inv : σ → Prop) (μ : σ → Nat)
    (B : Nat) (hinv : ∀ s, ∀ x ∈ l, Inv s → Inv (step (s, false) x).1)
    (hmono : ∀ s, ∀ x ∈ l, Inv s → μ s ≤ μ (step (s, false) x).1)
    (hlt : ∀ s, ∀ x ∈ l, Inv s → (step (s, false) x).2 = true → μ s < μ (step (s, false) x).1)
    (hbound : ∀ s, Inv s → μ s ≤ B) (n : Nat) (s : σ) (hs : Inv s) (hn : B < n + μ s) :
    Inv (whileChanged (fun s => l.foldl step (s, false)) n s) ∧
      (∀ x ∈ l, (step (whileChanged (fun s => l.foldl step (s, false)) n s, false) x).2 = false) ∧
      whileChangedStops (fun s => l.foldl step (s, false)) n s = true := by
  have hpass := foldl_grows h Inv μ l hinv hmono hlt
  obtain ⟨r, hr, hq, heq, hstop⟩ := whileChanged_stable Inv μ B (fun s hs => (hpass s hs).1)
    (fun s hs => (hpass s hs).2.2) hbound n s hs hn
  obtain ⟨hfix, hsteps⟩ := foldl_quiet h l r hq
  rw [heq, hfix]
  exact ⟨hr, hsteps, hstop⟩

end FlagStep

/-- Under a pass that only adds, a property of the seed that adding keeps holds at the end. -/
theorem whileChanged_mono {σ : Type} {pass : σ → σ × Bool} (R : σ → σ → Prop)
    (hrefl : ∀ s, R s s) (htrans : ∀ s s' s'', R s s' → R s' s'' → R s s'')
    (hstep : ∀ s, R s (pass s).1) : ∀ n s, R s (whileChanged pass n s) :=
  fun n s => whileChanged_induction (R s) (fun s' h => htrans _ _ _ h (hstep s')) n s (hrefl s)

/-! ## Nullability -/

section Epsilon

variable {prods : List Production}

/-- The rule of `compute_epsilon_derivers`: a right-hand side that is empty, `[ε]`, or made of
nullable symbols that are neither terminals nor `$`. -/
def NullableRhs (eps : Symbol → Bool) (rhs : List Symbol) : Prop :=
  (rhs.isEmpty || isEpsilonRhs rhs) = true ∨
    rhs.all (fun x => !(x.isTerminal || x.isEndOfInput) && eps x) = true

instance (eps : Symbol → Bool) (rhs : List Symbol) : Decidable (NullableRhs eps rhs) :=
  inferInstanceAs (Decidable (_ ∨ _))

theorem isEpsilonRhs_iff {rhs : List Symbol} :
    isEpsilonRhs rhs = true ↔ ∃ x, rhs = [x] ∧ x.isEpsilon = true := by
  match rhs with
  | [x] => simp [isEpsilonRhs]
  | [] | _ :: _ :: _ => simp [isEpsilonRhs]

/-- Inversion lemma: the step marks the left-hand side, and reports a change, exactly when it is
not marked yet and the right-hand side is nullable; otherwise it changes nothing. -/
theorem epsilonStep_eq (s : (Symbol → Bool) × Bool) (p : Production) :
    epsilonStep s p =
      if s.1 p.lhs = false ∧ NullableRhs s.1 p.rhs then (Function.update s.1 p.lhs true, true)
      else s := by
  unfold epsilonStep
  by_cases h1 : s.1 p.lhs = true
  · rw [if_pos h1, if_neg fun h => by simp [h1] at h]
  have h1' : s.1 p.lhs = false := by simpa using h1
  rw [if_neg h1]
  by_cases h2 : (p.rhs.isEmpty || isEpsilonRhs p.rhs) = true
  · rw [if_pos h2, if_pos ⟨h1', .inl h2⟩]
  by_cases h3 : p.rhs.all (fun x => !(x.isTerminal || x.isEndOfInput) && s.1 x) = true
  · rw [if_neg h2, if_pos h3, if_pos ⟨h1', .inr h3⟩]
  · rw [if_neg h2, if_neg h3, if_neg fun h => h.2.elim h2 h3]

theorem epsilonStep_flagStep : FlagStep epsilonStep where
  flag s b p := by rw [epsilonStep_eq, epsilonStep_eq]; split <;> simp
  quiet s p h := by rw [epsilonStep_eq] at h ⊢; split <;> simp_all

theorem epsilonStep_le {s : (Symbol → Bool) × Bool} {p : Production} {x : Symbol}
    (h : s.1 x = true) : (epsilonStep s p).1 x = true := by
  rw [epsilonStep_eq]
  split <;> simp [Function.update_apply, h]

theorem epsilonStep_quiet {e : Symbol → Bool} {p : Production}
    (h : (epsilonStep (e, false) p).2 = false) (hr : NullableRhs e p.rhs) : e p.lhs = true := by
  rw [epsilonStep_eq] at h
  split at h
  · simp at h
  · rename_i hc
    by_contra hne
    exact hc ⟨by simpa using hne, hr⟩

theorem epsilonStep_grows {e : Symbol → Bool} {p : Production}
    (h : (epsilonStep (e, false) p).2 = true) :
    e p.lhs = false ∧ (epsilonStep (e, false) p).1 p.lhs = true := by
  rw [epsilonStep_eq] at h ⊢
  split at h
  · rw [if_pos ‹_›]
    exact ⟨‹_ ∧ _›.1, by simp⟩
  · simp at h

/-- The loop of `compute_epsilon_derivers` stops within its passes, on a state where the step of
no production reports a change. -/
theorem epsilonLoop_stops :
    (∀ p ∈ prods, (epsilonStep (computeEpsilonDerivers prods, false) p).2 = false) ∧
      whileChangedStops (epsilonPass prods) (prods.length + 1) (fun x => x == epsilonSymbol) = true := by
  have hmono : ∀ (e : Symbol → Bool), ∀ p ∈ prods, True →
      prods.countP (fun q => e q.lhs) ≤ prods.countP (fun q => (epsilonStep (e, false) p).1 q.lhs) :=
    fun e p _ _ => List.countP_mono_left fun q _ hq => @epsilonStep_le (e, false) p q.lhs hq
  have hlt : ∀ (e : Symbol → Bool), ∀ p ∈ prods, True → (epsilonStep (e, false) p).2 = true →
      prods.countP (fun q => e q.lhs) < prods.countP (fun q => (epsilonStep (e, false) p).1 q.lhs) := by
    intro e p hp _ hc
    obtain ⟨h1, h2⟩ := epsilonStep_grows hc
    exact countP_lt_countP (fun q _ hq => @epsilonStep_le (e, false) p q.lhs hq) ⟨p, hp, h2, by simp [h1]⟩
  obtain ⟨-, hq, hstop⟩ := FlagStep.whileChanged_closed epsilonStep_flagStep prods (fun _ => True)
    (fun e => prods.countP (fun q => e q.lhs)) prods.length (fun _ _ _ _ => trivial) hmono hlt
    (fun _ _ => List.countP_le_length _) (prods.length + 1) _ trivial
    (Nat.lt_of_lt_of_le (Nat.lt_succ_self _) (Nat.le_add_right _ _))
  exact ⟨hq, hstop⟩

/-- `compute_epsilon_derivers` is closed under its rule: a production whose right-hand side is
nullable has a nullable left-hand side. -/
theorem computeEpsilonDerivers_closed {p : Production} (hp : p ∈ prods)
    (hr : NullableRhs (computeEpsilonDerivers prods) p.rhs) :
    computeEpsilonDerivers prods p.lhs = true :=
  epsilonStep_quiet (epsilonLoop_stops.1 p hp) hr

/-- ε starts nullable and stays so. -/
theorem computeEpsilonDerivers_epsilon : computeEpsilonDerivers prods epsilonSymbol = true :=
  whileChanged_induction (fun e => e epsilonSymbol = true)
    (fun e he => foldl_invariant (fun s => s.1 epsilonSymbol = true) epsilonStep prods (e, false) he
      fun _ _ _ h => epsilonStep_le h) _ _ (by simp)

/-- Only ε and left-hand sides of productions are ever made nullable. -/
theorem computeEpsilonDerivers_cases {x : Symbol} (h : computeEpsilonDerivers prods x = true) :
    x = epsilonSymbol ∨ ∃ p ∈ prods, p.lhs = x := by
  refine whileChanged_induction (fun e => ∀ x, e x = true → x = epsilonSymbol ∨ ∃ p ∈ prods, p.lhs = x)
    (fun e he => foldl_invariant (fun s => ∀ x, s.1 x = true → x = epsilonSymbol ∨ ∃ p ∈ prods, p.lhs = x)
      epsilonStep prods (e, false) he fun s p hp hs x hx => ?_) _ _
    (fun x hx => .inl (beq_iff_eq.mp hx)) x h
  have hupd : Function.update s.1 p.lhs true x = true → x = epsilonSymbol ∨ ∃ p ∈ prods, p.lhs = x := by
    rcases eq_or_ne x p.lhs with rfl | hne
    · exact fun _ => .inr ⟨p, hp, rfl⟩
    · rw [Function.update_noteq hne]
      exact hs x
  rw [epsilonStep_eq] at hx
  split at hx
  · exact hupd hx
  · exact hs x hx

end Epsilon

/-! ## FIRST -/

/-- The terminals of the table, ε and `$`: what FIRST and FOLLOW sets may hold. -/
def lookaheadUniverse (t : SymbolTable) : List Symbol :=
  t.getTerminals ++ [epsilonSymbol, endOfInputSymbol]

theorem length_lookaheadUniverse (t : SymbolTable) :
    (lookaheadUniverse t).length ≤ t.symbols.length + 2 := by
  simpa [lookaheadUniverse, SymbolTable.getTerminals] using List.length_filter_le _ t.symbols

/-- Sets without duplicates, within the terminals, ε and `$`. -/
def SetsWithin (t : SymbolTable) (f : Symbol → List Symbol) : Prop :=
  ∀ x, (f x).Nodup ∧ f x ⊆ lookaheadUniverse t

theorem SetsWithin.length_le {t : SymbolTable} {f : Symbol → List Symbol} (h : SetsWithin t f)
    (x : Symbol) : (f x).length ≤ t.symbols.length + 2 :=
  ((h x).1.subperm (h x).2).length_le.trans (length_lookaheadUniverse t)

/-- Summing set sizes over a list of symbols stays below the list's length times the bound. -/
theorem SetsWithin.sum_le {t : SymbolTable} {f : Symbol → List Symbol} (h : SetsWithin t f)
    (xs : List Symbol) : (xs.map fun x => (f x).length).sum ≤ xs.length * (t.symbols.length + 2) := by
  have := List.sum_le_card_nsmul (xs.map fun x => (f x).length) (t.symbols.length + 2)
    fun n hn => by
      obtain ⟨x, -, rfl⟩ := List.mem_map.mp hn
      exact h.length_le x
  simpa using this

/-- Updating one set to a set that has it as a suffix. -/
theorem sum_le_sum_update {f : Symbol → List Symbol} {y : Symbol} {new : List Symbol}
    (hs : f y <:+ new) (xs : List Symbol) :
    (xs.map fun x => (f x).length).sum ≤ (xs.map fun x => (Function.update f y new x).length).sum :=
  List.sum_le_sum fun x _ => by
    by_cases hx : x = y
    · subst hx; simpa using hs.length_le
    · simp [Function.update_noteq hx]

theorem sum_lt_sum_update {f : Symbol → List Symbol} {y : Symbol} {new : List Symbol}
    (hs : f y <:+ new) (hlen : (f y).length ≠ new.length) {xs : List Symbol} (hy : y ∈ xs) :
    (xs.map fun x => (f x).length).sum < (xs.map fun x => (Function.update f y new x).length).sum :=
  List.sum_lt_sum _ _ (fun x _ => by
    by_cases hx : x = y
    · subst hx; simpa using hs.length_le
    · simp [Function.update_noteq hx])
    ⟨y, hy, by simpa using lt_of_le_of_ne hs.length_le hlen⟩

section First

variable {t : SymbolTable} {prods : List Production} {eps : Symbol → Bool}

theorem suffix_addFirstOfSeq (first : Symbol → List Symbol) :
    ∀ (xs acc : List Symbol), acc <:+ addFirstOfSeq eps first xs acc := by
  intro xs
  induction xs with
  | nil => exact fun _ => List.suffix_refl _
  | cons x rest ih =>
    intro acc
    have h1 := List.suffix_union_right ((first x).filter fun y => !y.isEpsilon) acc
    unfold addFirstOfSeq
    split
    · exact h1
    · split
      · exact h1.trans (List.suffix_insert _ _)
      · exact h1.trans (ih _)

theorem nodup_addFirstOfSeq (first : Symbol → List Symbol) :
    ∀ (xs acc : List Symbol), acc.Nodup → (addFirstOfSeq eps first xs acc).Nodup := by
  intro xs
  induction xs with
  | nil => exact fun _ h => h
  | cons x rest ih =>
    intro acc h
    have h1 := h.union ((first x).filter fun y => !y.isEpsilon)
    unfold addFirstOfSeq
    split
    · exact h1
    · split
      · exact h1.insert
      · exact ih _ h1

/-- What the step of a production puts in the set of its left-hand side. -/
theorem firstStep_fst (first : Symbol → List Symbol) (b : Bool) (p : Production) :
    (firstStep eps (first, b) p).1 = Function.update first p.lhs
      (if p.rhs.isEmpty then List.insert epsilonSymbol (first p.lhs)
       else addFirstOfSeq eps first p.rhs (first p.lhs)) := rfl

theorem suffix_firstStep (first : Symbol → List Symbol) (p : Production) :
    first p.lhs <:+ (if p.rhs.isEmpty then List.insert epsilonSymbol (first p.lhs)
      else addFirstOfSeq eps first p.rhs (first p.lhs)) := by
  split
  · exact List.suffix_insert _ _
  · exact suffix_addFirstOfSeq first _ _

theorem firstStep_flagStep : FlagStep (firstStep eps) where
  flag s b p := by simp [firstStep]
  quiet s p h := by
    simp only [firstStep, Bool.false_or, bne_eq_false_iff_eq] at h
    rw [firstStep_fst, ← (suffix_firstStep s p).eq_of_length h.symm, Function.update_eq_self]

theorem firstStep_within (s : Symbol → List Symbol) (p : Production) (hs : SetsWithin t s) :
    SetsWithin t (firstStep eps (s, false) p).1 := by
  intro x
  rw [firstStep_fst]
  by_cases hx : x = p.lhs
  · subst hx
    simp only [Function.update_same]
    split
    · refine ⟨(hs _).1.insert, fun y hy => ?_⟩
      rcases List.mem_insert_iff.mp hy with rfl | hy
      · simp [lookaheadUniverse]
      · exact (hs _).2 hy
    · refine ⟨nodup_addFirstOfSeq s _ _ (hs _).1, fun y hy => ?_⟩
      rcases mem_addFirstOfSeq hy with hy | rfl | ⟨z, -, hz, -⟩
      · exact (hs _).2 hy
      · simp [lookaheadUniverse]
      · exact (hs z).2 hz
  · simpa [Function.update_noteq hx] using hs x

theorem firstInit_within : SetsWithin t (firstInit t) := by
  intro x
  simp only [firstInit]
  split
  · rename_i h
    refine ⟨List.nodup_singleton x, fun y hy => ?_⟩
    obtain rfl := List.mem_singleton.mp hy
    rcases h with h | h | h <;> simp [lookaheadUniverse, h]
  · simp

/-- `compute_first_sets` gives duplicate-free sets within the terminals, ε and `$`. -/
theorem computeFirstSets_within : SetsWithin t (computeFirstSets t prods eps) :=
  whileChanged_induction (SetsWithin t) (fun f hf => foldl_invariant (fun s => SetsWithin t s.1)
    (firstStep eps) prods (f, false) hf fun s p _ hs => firstStep_within s.1 p hs) _ _ firstInit_within

/-- The loop of `compute_first_sets` stops within its passes, on sets closed under its rule: the
step of every production changes nothing. -/
theorem firstLoop_stops :
    (∀ p ∈ prods, (firstStep eps (computeFirstSets t prods eps, false) p).2 = false) ∧
      whileChangedStops (firstPass eps prods) (firstFuel t prods) (firstInit t) = true := by
  obtain ⟨-, hq, hstop⟩ := FlagStep.whileChanged_closed (firstStep_flagStep : FlagStep (firstStep eps))
    prods (SetsWithin t)
    (fun f => (prods.map fun q => (f q.lhs).length).sum) (prods.length * (t.symbols.length + 2))
    (fun s p _ hs => firstStep_within s p hs)
    (fun s p _ _ => by
      simpa [List.map_map, firstStep_fst] using
        sum_le_sum_update (suffix_firstStep s p) (prods.map (·.lhs)))
    (fun s p hp _ hc => by
      simp only [firstStep, Bool.false_or, bne_iff_ne, ne_eq] at hc
      simpa [List.map_map, firstStep_fst] using sum_lt_sum_update (suffix_firstStep s p)
        (fun e => hc e.symm) (List.mem_map_of_mem (·.lhs) hp))
    (fun s hs => by simpa using hs.sum_le (prods.map (·.lhs))) (firstFuel t prods) (firstInit t)
    firstInit_within (by simp only [firstFuel]; omega)
  exact ⟨hq, hstop⟩

theorem computeFirstSets_closed {p : Production} (hp : p ∈ prods) :
    (firstStep eps (computeFirstSets t prods eps, false) p).2 = false :=
  firstLoop_stops.1 p hp

/-- A closed step: the set of the left-hand side already holds what the production adds. -/
theorem firstStep_quiet_eq {f : Symbol → List Symbol} {p : Production}
    (h : (firstStep eps (f, false) p).2 = false) :
    (if p.rhs.isEmpty then List.insert epsilonSymbol (f p.lhs)
      else addFirstOfSeq eps f p.rhs (f p.lhs)) = f p.lhs := by
  simp only [firstStep, Bool.false_or, bne_eq_false_iff_eq] at h
  exact ((suffix_firstStep f p).eq_of_length h.symm).symm

theorem subset_firstStep (s : (Symbol → List Symbol) × Bool) (p : Production) (y : Symbol) :
    s.1 y ⊆ (firstStep eps s p).1 y := by
  by_cases hy : y = p.lhs
  · subst hy
    simpa [firstStep] using (suffix_firstStep s.1 p).subset
  · simp [firstStep, Function.update_noteq hy]

/-- Sets only grow: the seeds stay. -/
theorem firstInit_subset_computeFirstSets (x : Symbol) :
    firstInit t x ⊆ computeFirstSets t prods eps x :=
  whileChanged_mono (fun f f' => ∀ y, f y ⊆ f' y) (fun _ _ => List.Subset.refl _)
    (fun _ _ _ h h' y => (h y).trans (h' y))
    (fun f y => foldl_invariant (fun s => f y ⊆ s.1 y) (firstStep eps) prods (f, false) (List.Subset.refl _)
      fun s p _ h => h.trans (subset_firstStep s p y))
    (firstFuel t prods) (firstInit t) x

/-- A symbol that is no left-hand side keeps its seed. -/
theorem computeFirstSets_of_not_lhs {x : Symbol} (hx : ∀ p ∈ prods, p.lhs ≠ x) :
    computeFirstSets t prods eps x = firstInit t x :=
  whileChanged_induction (fun f => f x = firstInit t x)
    (fun f hf => foldl_invariant (fun s => s.1 x = firstInit t x) (firstStep eps) prods (f, false) hf
      fun ⟨f', b⟩ p hp h => by
        dsimp only at h ⊢
        rw [firstStep_fst, Function.update_noteq (hx p hp).symm]
        exact h)
    _ _ rfl

/-- The seed `{t}` of a terminal of the table stays. -/
theorem mem_computeFirstSets_self {x : Symbol} (hx : x ∈ t.getTerminals) :
    x ∈ computeFirstSets t prods eps x :=
  firstInit_subset_computeFirstSets x (by simp [firstInit, hx])

end First

/-! ## FOLLOW -/

section Follow

variable {t : SymbolTable} {prods : List Production} {eps : Symbol → Bool}
  {first : Symbol → List Symbol}

/-- The set `compute_follow_sets` gives `FOLLOW(b)` at a position of `b` with suffix `beta` in a
production of `lhs`. -/
def followNew (eps : Symbol → Bool) (first f : Symbol → List Symbol) (lhs b : Symbol)
    (beta : List Symbol) : List Symbol :=
  if beta.isEmpty then f lhs ∪ f b
  else
    let withFirst := (firstSetSeq eps first beta).filter (fun y => !y.isEpsilon) ∪ f b
    if beta.all eps then f lhs ∪ withFirst else withFirst

theorem followOfRhs_cons (lhs b : Symbol) (beta : List Symbol)
    (s : (Symbol → List Symbol) × Bool) :
    followOfRhs eps first lhs (b :: beta) s =
      if !b.isNonterminal then followOfRhs eps first lhs beta s
      else followOfRhs eps first lhs beta
        (Function.update s.1 b (followNew eps first s.1 lhs b beta),
          s.2 || (followNew eps first s.1 lhs b beta).length != (s.1 b).length) := rfl

theorem suffix_followNew (f : Symbol → List Symbol) (lhs b : Symbol) (beta : List Symbol) :
    f b <:+ followNew eps first f lhs b beta := by
  unfold followNew
  have h := List.suffix_union_right ((firstSetSeq eps first beta).filter fun y => !y.isEpsilon) (f b)
  split
  · exact List.suffix_union_right _ _
  · split
    · exact h.trans (List.suffix_union_right _ _)
    · exact h

theorem followOfRhs_flag (lhs : Symbol) : ∀ (beta : List Symbol) (f : Symbol → List Symbol)
    (c : Bool), followOfRhs eps first lhs beta (f, c) =
      ((followOfRhs eps first lhs beta (f, false)).1,
        c || (followOfRhs eps first lhs beta (f, false)).2)
  | [], _, _ => by simp [followOfRhs]
  | b :: beta, f, c => by
    rw [followOfRhs_cons, followOfRhs_cons]
    split
    · exact followOfRhs_flag lhs beta f c
    · rw [followOfRhs_flag lhs beta _ (c || _), followOfRhs_flag lhs beta _ (false || _)]
      simp [Bool.or_assoc]

/-- A quiet pass over a right-hand side changed nothing: at each nonterminal position the set
already holds what the position adds. -/
theorem followOfRhs_quiet (lhs : Symbol) : ∀ (beta : List Symbol) (f : Symbol → List Symbol),
    (followOfRhs eps first lhs beta (f, false)).2 = false →
      (followOfRhs eps first lhs beta (f, false)).1 = f ∧
        ∀ α b β, beta = α ++ b :: β → b.isNonterminal = true →
          followNew eps first f lhs b β = f b
  | [], _, _ => ⟨rfl, fun α b β h => by simp at h⟩
  | b :: beta, f, hq => by
    rw [followOfRhs_cons] at hq ⊢
    split at hq
    · rename_i hb
      rw [if_pos hb]
      obtain ⟨h1, h2⟩ := followOfRhs_quiet lhs beta f hq
      refine ⟨h1, fun α b' β h hb' => ?_⟩
      rcases α with _ | ⟨a, α⟩
      · obtain ⟨rfl, rfl⟩ := List.cons_eq_cons.mp h
        simp [hb'] at hb
      · exact h2 α b' β (List.cons_eq_cons.mp h).2 hb'
    · rename_i hb
      rw [if_neg hb]
      dsimp only at hq ⊢
      rw [followOfRhs_flag, Bool.false_or, Bool.or_eq_false_iff, bne_eq_false_iff_eq] at hq
      have heq := (suffix_followNew f lhs b beta).eq_of_length hq.1.symm
      rw [followOfRhs_flag, ← heq, Function.update_eq_self]
      rw [← heq, Function.update_eq_self] at hq
      obtain ⟨h1, h2⟩ := followOfRhs_quiet lhs beta f hq.2
      refine ⟨h1, fun α b' β h hb' => ?_⟩
      rcases α with _ | ⟨a, α⟩
      · obtain ⟨rfl, rfl⟩ := List.cons_eq_cons.mp h
        exact heq.symm
      · exact h2 α b' β (List.cons_eq_cons.mp h).2 hb'

theorem followNew_within (hfirst : SetsWithin t first) {f : Symbol → List Symbol}
    (hf : SetsWithin t f) (lhs b : Symbol) (beta : List Symbol) :
    (followNew eps first f lhs b beta).Nodup ∧ followNew eps first f lhs b beta ⊆ lookaheadUniverse t := by
  have hseq : ∀ y ∈ firstSetSeq eps first beta, y ∈ lookaheadUniverse t := fun y hy => by
    rcases mem_firstSetSeq hy with rfl | ⟨z, -, hz, -⟩
    · simp [lookaheadUniverse]
    · exact (hfirst z).2 hz
  have hw : ((firstSetSeq eps first beta).filter (fun y => !y.isEpsilon) ∪ f b).Nodup ∧
      (firstSetSeq eps first beta).filter (fun y => !y.isEpsilon) ∪ f b ⊆ lookaheadUniverse t :=
    ⟨(hf b).1.union _, fun y hy => (List.mem_union_iff.mp hy).elim
      (fun hy => hseq y (List.mem_filter.mp hy).1) fun hy => (hf b).2 hy⟩
  unfold followNew
  split
  · exact ⟨(hf b).1.union _, fun y hy => (List.mem_union_iff.mp hy).elim
      (fun hy => (hf lhs).2 hy) fun hy => (hf b).2 hy⟩
  · split
    · exact ⟨hw.1.union _, fun y hy => (List.mem_union_iff.mp hy).elim
        (fun hy => (hf lhs).2 hy) fun hy => hw.2 hy⟩
    · exact hw

/-- One pass over a right-hand side keeps the sets within bounds, does not shrink them, and
grows their sizes over the symbols of the right-hand side when it reports a change. -/
theorem followOfRhs_grows (hfirst : SetsWithin t first) (lhs : Symbol) (xs : List Symbol) :
    ∀ (beta : List Symbol) (f : Symbol → List Symbol), (∀ x ∈ beta, x ∈ xs) → SetsWithin t f →
      SetsWithin t (followOfRhs eps first lhs beta (f, false)).1 ∧
      (xs.map fun x => (f x).length).sum ≤
        (xs.map fun x => ((followOfRhs eps first lhs beta (f, false)).1 x).length).sum ∧
      ((followOfRhs eps first lhs beta (f, false)).2 = true →
        (xs.map fun x => (f x).length).sum <
          (xs.map fun x => ((followOfRhs eps first lhs beta (f, false)).1 x).length).sum)
  | [], f, _, hf => ⟨hf, le_rfl, by simp [followOfRhs]⟩
  | b :: beta, f, hxs, hf => by
    have htail : ∀ x ∈ beta, x ∈ xs := fun x hx => hxs x (List.mem_cons_of_mem b hx)
    rw [followOfRhs_cons]
    split
    · exact followOfRhs_grows hfirst lhs xs beta f htail hf
    · rw [followOfRhs_flag, Bool.false_or]
      have hnew : (followNew eps first f lhs b beta).Nodup ∧
          followNew eps first f lhs b beta ⊆ lookaheadUniverse t :=
        followNew_within hfirst hf lhs b beta
      have hf' : SetsWithin t (Function.update f b (followNew eps first f lhs b beta)) := fun x => by
        by_cases hx : x = b
        · subst hx; simpa using hnew
        · simpa [Function.update_noteq hx] using hf x
      obtain ⟨h1, h2, h3⟩ := followOfRhs_grows hfirst lhs xs beta _ htail hf'
      have hsuf : f b <:+ followNew eps first f lhs b beta := suffix_followNew f lhs b beta
      have hle := sum_le_sum_update hsuf xs
      refine ⟨h1, hle.trans h2, fun hc => ?_⟩
      rcases Bool.or_eq_true_iff.mp hc with hc | hc
      · exact lt_of_lt_of_le (sum_lt_sum_update hsuf (fun e => (bne_iff_ne.mp hc) e.symm)
          (hxs b (List.mem_cons_self b beta))) h2
      · exact lt_of_le_of_lt hle (h3 hc)

theorem followStep_flagStep :
    FlagStep (fun (s : (Symbol → List Symbol) × Bool) (p : Production) =>
      followOfRhs eps first p.lhs p.rhs s) where
  flag s b p := followOfRhs_flag p.lhs p.rhs s b
  quiet s p h := (followOfRhs_quiet p.lhs p.rhs s h).1

theorem followInit_within (start : Option Symbol) : SetsWithin t (followInit start) := fun x => by
  simp only [followInit]
  split <;> simp [lookaheadUniverse]

/-- The loop of `compute_follow_sets` stops within its passes, on sets where the pass over no
right-hand side reports a change. -/
theorem followLoop_stops (hfirst : SetsWithin t first) (start : Option Symbol) :
    (∀ p ∈ prods,
      (followOfRhs eps first p.lhs p.rhs (computeFollowSets t prods start eps first, false)).2 = false) ∧
      whileChangedStops (followPass eps first prods) (followFuel t prods) (followInit start) = true := by
  have hxs : ∀ q ∈ prods, ∀ x ∈ q.rhs, x ∈ prods.flatMap (·.rhs) :=
    fun q hq x hx => List.mem_flatMap.mpr ⟨q, hq, hx⟩
  obtain ⟨-, hq, hstop⟩ := FlagStep.whileChanged_closed followStep_flagStep prods (SetsWithin t)
    (fun f => ((prods.flatMap (·.rhs)).map fun x => (f x).length).sum)
    ((prods.map fun p => p.rhs.length).sum * (t.symbols.length + 2))
    (fun s q hq hs => (followOfRhs_grows hfirst q.lhs _ q.rhs s (hxs q hq) hs).1)
    (fun s q hq hs => (followOfRhs_grows hfirst q.lhs _ q.rhs s (hxs q hq) hs).2.1)
    (fun s q hq hs => (followOfRhs_grows hfirst q.lhs _ q.rhs s (hxs q hq) hs).2.2)
    (fun s hs => by simpa [List.length_flatMap] using hs.sum_le (prods.flatMap (·.rhs)))
    (followFuel t prods) (followInit start) (followInit_within start)
    (by simp only [followFuel]; omega)
  exact ⟨hq, hstop⟩

/-- `compute_follow_sets` gives duplicate-free sets within the terminals, ε and `$`. -/
theorem computeFollowSets_within (hfirst : SetsWithin t first) (start : Option Symbol) :
    SetsWithin t (computeFollowSets t prods start eps first) :=
  whileChanged_induction (SetsWithin t) (fun f hf => foldl_invariant (fun s => SetsWithin t s.1)
    (fun s p => followOfRhs eps first p.lhs p.rhs s) prods (f, false) hf fun ⟨f', b⟩ p _ hs => by
      dsimp only at hs ⊢
      rw [followOfRhs_flag]
      exact (followOfRhs_grows hfirst p.lhs p.rhs p.rhs f' (fun _ h => h) hs).1)
    _ _ (followInit_within start)

/-- `compute_follow_sets` stops on sets closed under its rule: at each nonterminal position of each
production, the set already holds what the position adds. -/
theorem computeFollowSets_closed (hfirst : SetsWithin t first) (start : Option Symbol)
    {p : Production} (hp : p ∈ prods) {α : List Symbol} {b : Symbol} {β : List Symbol}
    (h : p.rhs = α ++ b :: β) (hb : b.isNonterminal = true) :
    followNew eps first (computeFollowSets t prods start eps first) p.lhs b β =
      computeFollowSets t prods start eps first b :=
  (followOfRhs_quiet p.lhs p.rhs _ ((followLoop_stops hfirst start).1 p hp)).2 α b β h hb

theorem mem_followNew_of_first {f : Symbol → List Symbol} {lhs b y : Symbol} {β : List Symbol}
    (hy : y ∈ firstSetSeq eps first β) (hne : y.isEpsilon = false) :
    y ∈ followNew eps first f lhs b β := by
  have hw : y ∈ (firstSetSeq eps first β).filter (fun y => !y.isEpsilon) ∪ f b :=
    List.mem_union_left (List.mem_filter.mpr ⟨hy, by simp [hne]⟩) _
  unfold followNew
  split
  · rename_i hβ
    rw [List.isEmpty_iff.mp hβ] at hy
    simp [firstSetSeq, addFirstOfSeq] at hy
    simp [hy, epsilonSymbol, Symbol.isEpsilon] at hne
  · split
    · exact List.mem_union_right _ hw
    · exact hw

theorem subset_followNew {f : Symbol → List Symbol} {lhs b : Symbol} {β : List Symbol}
    (h : (β.isEmpty || β.all eps) = true) : f lhs ⊆ followNew eps first f lhs b β := by
  unfold followNew
  split
  · exact fun _ h => List.mem_union_left h _
  · rename_i hβ
    rw [if_pos (by simpa [hβ] using h)]
    exact fun _ h => List.mem_union_left h _

theorem subset_followOfRhs (lhs : Symbol) : ∀ (beta : List Symbol)
    (s : (Symbol → List Symbol) × Bool) (y : Symbol),
    s.1 y ⊆ (followOfRhs eps first lhs beta s).1 y
  | [], _, _ => List.Subset.refl _
  | b :: beta, s, y => by
    rw [followOfRhs_cons]
    split
    · exact subset_followOfRhs lhs beta s y
    · refine List.Subset.trans ?_ (subset_followOfRhs lhs beta _ y)
      by_cases hy : y = b
      · subst hy
        simpa using (suffix_followNew s.1 lhs y beta).subset
      · simp [Function.update_noteq hy]

/-- The seed `{$}` of the start symbol stays. -/
theorem mem_computeFollowSets_start {S : Symbol} :
    endOfInputSymbol ∈ computeFollowSets t prods (some S) eps first S := by
  have h := whileChanged_mono (fun f f' => ∀ y, f y ⊆ f' y) (fun _ _ => List.Subset.refl _)
    (fun _ _ _ h h' y => (h y).trans (h' y))
    (fun f y => foldl_invariant (fun s => f y ⊆ s.1 y)
      (fun s p => followOfRhs eps first p.lhs p.rhs s) prods (f, false) (List.Subset.refl _)
      fun s p _ h => h.trans (subset_followOfRhs p.lhs p.rhs s y))
    (followFuel t prods) (followInit (some S)) S
  exact h (by simp [followInit])

end Follow

end Lalr1
