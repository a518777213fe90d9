import Mathlib.Logic.Relation
import Lalr1.Augment
import Lalr1.Fixpoint

/-!
# Derivations, and nullability and FIRST against them

`compute_epsilon_derivers` and `compute_first_sets` are meant to compute what derivations do. A
derivation step replaces a nonterminal of a sentential form by the right-hand side of one of its
productions, with the table's ε read as the empty string (`erase`); `Derives prods α β` is
`α ⇒* β`.

The proofs go through `FirstOf`, the pointwise reading of the walk `addFirstOfSeq` makes
(`mem_addFirstOfSeq_iff`, `mem_firstSetSeq_iff`): a symbol is in `FIRST(x₁ … xₖ)` when it is in
`FIRST(xᵢ)` for some `xᵢ` whose predecessors are all nullable.

* Completeness: sets closed under the rules of the two loops (`Closed`) hold what derivations
  give. One lemma per derivation step carries "every symbol is nullable" and "`y` is in `FIRST`"
  back over the step (`Closed.nullable_of_produces`, `Closed.firstOf_of_produces`), and head
  induction carries them over a whole derivation.
* Soundness: every pass of the loops keeps "what is marked is derived"
  (`derives_nil_of_computeEpsilonDerivers`, `inFirst_of_mem_computeFirstSets`); this needs every
  production to rewrite a nonterminal, since a derivation rewrites nothing else.

On the grammars built through the API whose productions rewrite nonterminals the analyses are
exact, and both loops stop within their passes (`nullable_first_exact`). `add_production`
accepts a terminal as left-hand side, which makes that terminal nullable; and a terminal that is
not in the grammar's table has an empty FIRST set (`nullable_first_inexact`).
-/

namespace Lalr1

open Relation

/-! ## Derivations -/

/-- A sentential form with ε read as the empty string. -/
def erase (xs : List Symbol) : List Symbol := xs.filter (· != epsilonSymbol)

@[simp] theorem erase_nil : erase [] = [] := rfl

@[simp] theorem erase_append (xs ys : List Symbol) : erase (xs ++ ys) = erase xs ++ erase ys :=
  List.filter_append xs ys

@[simp] theorem erase_epsilon_cons (xs : List Symbol) : erase (epsilonSymbol :: xs) = erase xs := by
  simp [erase]

theorem erase_cons_of_ne {x : Symbol} (h : x ≠ epsilonSymbol) (xs : List Symbol) :
    erase (x :: xs) = x :: erase xs := by
  simp [erase, h]

theorem mem_erase {x : Symbol} {xs : List Symbol} : x ∈ erase xs ↔ x ∈ xs ∧ x ≠ epsilonSymbol := by
  simp [erase]

/-- A piece of an ε-free form around one of its symbols comes from a piece of the form. -/
theorem erase_eq_append_cons {xs m₁ m₂ : List Symbol} {b : Symbol} (h : erase xs = m₁ ++ b :: m₂) :
    ∃ α β, xs = α ++ b :: β ∧ erase β = m₂ := by
  obtain ⟨l₁, l₂, rfl, -, h₂⟩ := List.filter_eq_append_iff.mp h
  obtain ⟨k₁, k₂, rfl, -, -, hk⟩ := List.filter_eq_cons_iff.mp h₂
  exact ⟨l₁ ++ k₁, k₂, by simp, hk⟩

theorem ne_epsilon_of_isNonterminal {x : Symbol} (h : x.isNonterminal = true) :
    x ≠ epsilonSymbol := by
  rintro rfl
  simp [epsilonSymbol, Symbol.isNonterminal] at h

/-- One step of a derivation: a nonterminal `A` of a sentential form is replaced by the
right-hand side of a production `A → γ`, with ε read as the empty string. -/
inductive Produces (prods : List Production) : List Symbol → List Symbol → Prop
  | rewrite {p : Production} (u v : List Symbol) : p ∈ prods → p.lhs.isNonterminal = true →
      Produces prods (u ++ p.lhs :: v) (u ++ erase p.rhs ++ v)

/-- `α ⇒* β`: the form `β` is derived from `α`, with ε read as the empty string, in zero or more
steps. -/
def Derives (prods : List Production) (α β : List Symbol) : Prop :=
  ReflTransGen (Produces prods) (erase α) β

variable {prods : List Production}

namespace Produces

theorem append_left {w w' : List Symbol} (h : Produces prods w w') (u : List Symbol) :
    Produces prods (u ++ w) (u ++ w') := by
  cases h with
  | rewrite u' v hp hnt => simpa using rewrite (u ++ u') v hp hnt

theorem append_right {w w' : List Symbol} (h : Produces prods w w') (v : List Symbol) :
    Produces prods (w ++ v) (w' ++ v) := by
  cases h with
  | rewrite u v' hp hnt => simpa using rewrite u (v' ++ v) hp hnt

/-- A step from one symbol rewrites it by one of its productions. -/
theorem singleton_cases {x : Symbol} {w : List Symbol} (h : Produces prods [x] w) :
    ∃ p ∈ prods, p.lhs = x ∧ p.lhs.isNonterminal = true ∧ w = erase p.rhs := by
  generalize hx : [x] = w₀ at h
  cases h with
  | @rewrite p u v hp hnt =>
    rcases u with _ | ⟨a, u⟩
    · obtain ⟨rfl, rfl⟩ := List.cons_eq_cons.mp hx
      exact ⟨p, hp, rfl, hnt, by simp⟩
    · simp at hx

end Produces

/-- Derivations of two forms, side by side. -/
theorem ReflTransGen.produces_append {a b c d : List Symbol} (h₁ : ReflTransGen (Produces prods) a b)
    (h₂ : ReflTransGen (Produces prods) c d) : ReflTransGen (Produces prods) (a ++ c) (b ++ d) :=
  (h₁.lift (· ++ c) fun _ _ h => h.append_right c).trans (h₂.lift (b ++ ·) fun _ _ h => h.append_left b)

/-- The forms derived from a form over `T` stay over `T` when every right-hand side is. -/
theorem forall_mem_of_derives {T : List Symbol} (hT : ∀ p ∈ prods, ∀ x ∈ p.rhs, x ∈ T)
    {w w' : List Symbol} (h : ReflTransGen (Produces prods) w w') (hw : ∀ x ∈ w, x ∈ T) :
    ∀ x ∈ w', x ∈ T := by
  induction h with
  | refl => exact hw
  | tail _ step ih =>
    cases step with
    | rewrite u v hp _ =>
      simp only [List.mem_append, List.mem_cons] at ih ⊢
      rintro x ((hx | hx) | hx)
      · exact ih x (.inl hx)
      · exact hT _ hp x (mem_erase.mp hx).1
      · exact ih x (.inr (.inr hx))

namespace Derives

theorem refl_erase (α : List Symbol) : Derives prods α (erase α) := .refl

theorem self {x : Symbol} (hx : x ≠ epsilonSymbol) : Derives prods [x] [x] := by
  unfold Derives
  rw [erase_cons_of_ne hx, erase_nil]

theorem epsilon_nil : Derives prods [epsilonSymbol] [] := by
  unfold Derives
  rw [erase_epsilon_cons, erase_nil]

theorem append {α β a b : List Symbol} (h₁ : Derives prods α a) (h₂ : Derives prods β b) :
    Derives prods (α ++ β) (a ++ b) := by
  unfold Derives at *
  rw [erase_append]
  exact ReflTransGen.produces_append h₁ h₂

/-- A production of a nonterminal, as the first step. -/
theorem head {p : Production} (hp : p ∈ prods) (hnt : p.lhs.isNonterminal = true)
    {w : List Symbol} (h : Derives prods p.rhs w) : Derives prods [p.lhs] w := by
  unfold Derives at *
  rw [erase_cons_of_ne (ne_epsilon_of_isNonterminal hnt), erase_nil]
  exact .head (by simpa using Produces.rewrite [] [] hp hnt) h

/-- More productions derive at least as much. -/
theorem mono {prods' : List Production} (h : prods ⊆ prods') {α β : List Symbol}
    (hd : Derives prods α β) : Derives prods' α β :=
  ReflTransGen.mono (fun _ _ hp => by cases hp with | rewrite u v hp hnt => exact .rewrite u v (h hp) hnt) hd

theorem nil_of_forall {xs : List Symbol} (h : ∀ x ∈ xs, Derives prods [x] []) :
    Derives prods xs [] := by
  induction xs with
  | nil => exact .refl
  | cons x xs ih =>
    simpa using (h x (List.mem_cons_self x xs)).append (ih fun y hy => h y (List.mem_cons_of_mem x hy))

end Derives

/-- A form whose first symbol is not rewritten derives nothing else. -/
theorem not_derives_nil_of_not_lhs {x : Symbol} (hx : x ≠ epsilonSymbol)
    (h : ∀ p ∈ prods, p.lhs = x → p.lhs.isNonterminal = false) : ¬ Derives prods [x] [] := by
  unfold Derives
  rw [erase_cons_of_ne hx, erase_nil]
  intro hd
  rcases hd.cases_head with h0 | ⟨w, step, -⟩
  · simp at h0
  · obtain ⟨p, hp, hpx, hnt, -⟩ := step.singleton_cases
    simp [h p hp hpx] at hnt

/-! ## FIRST of a sequence, pointwise -/

section FirstOf

variable {eps : Symbol → Bool} {first : Symbol → List Symbol} {y : Symbol}

/-- `y ∈ FIRST(x₁ … xₖ)` read pointwise: `y` is in the set of some `xᵢ` whose predecessors are
all nullable. -/
def FirstOf (eps : Symbol → Bool) (first : Symbol → List Symbol) (y : Symbol) :
    List Symbol → Prop
  | [] => False
  | x :: xs => y ∈ first x ∨ (eps x = true ∧ FirstOf eps first y xs)

@[simp] theorem firstOf_nil : ¬ FirstOf eps first y [] := id

@[simp] theorem firstOf_cons {x : Symbol} {xs : List Symbol} :
    FirstOf eps first y (x :: xs) ↔ y ∈ first x ∨ (eps x = true ∧ FirstOf eps first y xs) :=
  Iff.rfl

theorem firstOf_append {xs ys : List Symbol} :
    FirstOf eps first y (xs ++ ys) ↔
      FirstOf eps first y xs ∨ ((∀ x ∈ xs, eps x = true) ∧ FirstOf eps first y ys) := by
  induction xs with
  | nil => simp
  | cons x xs ih =>
    simp only [List.cons_append, firstOf_cons, ih, List.forall_mem_cons, and_or_left, or_assoc,
      and_assoc]

section Erase

variable (hε : eps epsilonSymbol = true)
include hε

/-- ε being nullable, reading it as the empty string changes no member of `FIRST`. -/
theorem firstOf_of_erase {xs : List Symbol} (h : FirstOf eps first y (erase xs)) :
    FirstOf eps first y xs := by
  induction xs with
  | nil => exact h
  | cons x xs ih =>
    by_cases hx : x = epsilonSymbol
    · subst hx
      rw [erase_epsilon_cons] at h
      exact .inr ⟨hε, ih h⟩
    · rw [erase_cons_of_ne hx] at h
      exact h.imp id fun h => ⟨h.1, ih h.2⟩

theorem forall_of_erase {xs : List Symbol} (h : ∀ x ∈ erase xs, eps x = true) :
    ∀ x ∈ xs, eps x = true := fun x hx => by
  by_cases hx' : x = epsilonSymbol
  · exact hx' ▸ hε
  · exact h x (mem_erase.mpr ⟨hx, hx'⟩)

end Erase

/-- What `addFirstOfSeq` adds: ε when every symbol is nullable, and the ε-free members of
`FIRST(x₁ … xₖ)`. -/
theorem mem_addFirstOfSeq_iff : ∀ {xs acc : List Symbol},
    y ∈ addFirstOfSeq eps first xs acc ↔ y ∈ acc ∨
      (y = epsilonSymbol ∧ xs ≠ [] ∧ ∀ x ∈ xs, eps x = true) ∨
      (y.isEpsilon = false ∧ FirstOf eps first y xs)
  | [], acc => by simp [addFirstOfSeq]
  | x :: rest, acc => by
    have hacc : y ∈ (first x).filter (fun y => !y.isEpsilon) ∪ acc ↔
        y ∈ acc ∨ (y.isEpsilon = false ∧ y ∈ first x) := by
      simp [or_comm, and_comm]
    unfold addFirstOfSeq
    cases hx : eps x with
    | false => simp [hx, hacc]
    | true =>
      rcases rest with _ | ⟨r, rs⟩
      · simp [hx, hacc, or_left_comm]
      · simp only [hx, hacc, mem_addFirstOfSeq_iff, Bool.not_true, Bool.false_eq_true, if_false,
          firstOf_cons, List.forall_mem_cons, true_and, and_or_left, or_assoc, or_left_comm,
          ne_eq, List.cons_ne_nil, not_false_eq_true]

/-- `first_set(vector)`: ε when every symbol is nullable, and the ε-free members of `FIRST`. -/
theorem mem_firstSetSeq_iff {xs : List Symbol} :
    y ∈ firstSetSeq eps first xs ↔ (y = epsilonSymbol ∧ ∀ x ∈ xs, eps x = true) ∨
      (y.isEpsilon = false ∧ FirstOf eps first y xs) := by
  have hall : (xs.isEmpty || xs.all eps) = true ↔ ∀ x ∈ xs, eps x = true := by
    cases xs <;> simp
  unfold firstSetSeq
  split
  · rename_i h
    rw [List.mem_insert_iff, mem_addFirstOfSeq_iff]
    simp only [List.not_mem_nil, false_or, and_iff_left (hall.mp h), ← or_assoc,
      or_iff_left_of_imp And.left]
  · rename_i h
    rw [mem_addFirstOfSeq_iff]
    have := mt hall.mpr h
    simp only [List.not_mem_nil, false_or, this, and_false]

end FirstOf

/-! ## Completeness: closed sets hold what derivations give -/

/-- Nullability and FIRST sets closed under the rules of `compute_epsilon_derivers` and
`compute_first_sets`. -/
structure Closed (prods : List Production) (eps : Symbol → Bool) (first : Symbol → List Symbol) :
    Prop where
  eps_epsilon : eps epsilonSymbol = true
  eps_lhs : ∀ p ∈ prods, (∀ x ∈ erase p.rhs, eps x = true) → eps p.lhs = true
  first_lhs : ∀ p ∈ prods, ∀ y, y.isEpsilon = false → FirstOf eps first y p.rhs → y ∈ first p.lhs
  epsilon_first : ∀ p ∈ prods, (∀ x ∈ p.rhs, eps x = true) → epsilonSymbol ∈ first p.lhs

namespace Closed

variable {eps : Symbol → Bool} {first : Symbol → List Symbol} {y : Symbol}
  (hc : Closed prods eps first)
include hc

/-- A step whose result has only nullable symbols comes from a form with only nullable symbols. -/
theorem nullable_of_produces {w w' : List Symbol} (h : Produces prods w w')
    (hw : ∀ x ∈ w', eps x = true) : ∀ x ∈ w, eps x = true := by
  cases h with
  | @rewrite p u v hp _ =>
    simp only [List.mem_append, List.mem_cons] at hw ⊢
    rintro x (hx | rfl | hx)
    · exact hw x (.inl (.inl hx))
    · exact hc.eps_lhs p hp fun z hz => hw z (.inl (.inr hz))
    · exact hw x (.inr hx)

/-- Every symbol of a form that derives the empty form is nullable. -/
theorem nullable_of_derives {w : List Symbol} (h : ReflTransGen (Produces prods) w []) :
    ∀ x ∈ w, eps x = true := by
  induction h using ReflTransGen.head_induction_on with
  | refl => simp
  | head step _ ih => exact hc.nullable_of_produces step ih

theorem eps_of_derives {x : Symbol} (h : Derives prods [x] []) : eps x = true :=
  forall_of_erase hc.eps_epsilon (hc.nullable_of_derives h) x (List.mem_singleton_self x)

/-- A step keeps an ε-free member of `FIRST`, read backwards. -/
theorem firstOf_of_produces {w w' : List Symbol} (h : Produces prods w w')
    (hy : y.isEpsilon = false) (hw : FirstOf eps first y w') : FirstOf eps first y w := by
  cases h with
  | @rewrite p u v hp _ =>
    rw [List.append_assoc, firstOf_append, firstOf_append] at hw
    rw [firstOf_append]
    rcases hw with hu | ⟨hu, hm | ⟨hm, hv⟩⟩
    · exact .inl hu
    · exact .inr ⟨hu, .inl (hc.first_lhs p hp y hy (firstOf_of_erase hc.eps_epsilon hm))⟩
    · exact .inr ⟨hu, .inr ⟨hc.eps_lhs p hp hm, hv⟩⟩

/-- The first symbol `y` of a derived form is in `FIRST` of the form it was derived from, when
`y` is in its own set. -/
theorem firstOf_of_derives {w β : List Symbol} (h : ReflTransGen (Produces prods) w (y :: β))
    (hy : y.isEpsilon = false) (hyy : y ∈ first y) : FirstOf eps first y w := by
  induction h using ReflTransGen.head_induction_on with
  | refl => exact .inl hyy
  | head step _ ih => exact hc.firstOf_of_produces step hy ih

/-- A symbol that derives the empty form has ε in its FIRST set. -/
theorem epsilon_mem_first {x : Symbol} (hε : epsilonSymbol ∈ first epsilonSymbol)
    (h : Derives prods [x] []) : epsilonSymbol ∈ first x := by
  by_cases hx : x = epsilonSymbol
  · exact hx ▸ hε
  · unfold Derives at h
    rw [erase_cons_of_ne hx, erase_nil] at h
    rcases h.cases_head with h | ⟨w, step, h⟩
    · simp at h
    · obtain ⟨p, hp, rfl, -, rfl⟩ := step.singleton_cases
      exact hc.epsilon_first p hp (forall_of_erase hc.eps_epsilon (hc.nullable_of_derives h))

end Closed

/-! ## Soundness: what the loops mark is derived -/

/-- `y ∈ FIRST(α)` by derivations: a terminal or `$` that begins a form derived from `α`, or ε
when `α ⇒* ε`. -/
def InFirst (prods : List Production) (α : List Symbol) (y : Symbol) : Prop :=
  ((y.isTerminal = true ∨ y = endOfInputSymbol) ∧ ∃ β, Derives prods α (y :: β)) ∨
    (y = epsilonSymbol ∧ Derives prods α [])

theorem isEpsilon_eq_false_of_terminal_or_eof {y : Symbol}
    (h : y.isTerminal = true ∨ y = endOfInputSymbol) : y.isEpsilon = false := by
  rcases h with h | rfl
  · simp only [Symbol.isTerminal_iff] at h
    simp [Symbol.isEpsilon, h]
  · rfl

/-- An ε-free member of `FIRST` of a sequence, over sound sets, begins a derived form. -/
theorem derives_of_firstOf {eps : Symbol → Bool} {first : Symbol → List Symbol} {y : Symbol}
    (heps : ∀ x, eps x = true → Derives prods [x] [])
    (hfirst : ∀ x y, y ∈ first x → InFirst prods [x] y) (hy : y.isEpsilon = false) :
    ∀ {xs}, FirstOf eps first y xs →
      (y.isTerminal = true ∨ y = endOfInputSymbol) ∧ ∃ β, Derives prods xs (y :: β)
  | x :: xs, .inl h => by
    rcases hfirst x y h with ⟨ht, β, hβ⟩ | ⟨rfl, -⟩
    · exact ⟨ht, β ++ erase xs, by simpa using hβ.append (Derives.refl_erase xs)⟩
    · simp [epsilonSymbol, Symbol.isEpsilon] at hy
  | x :: xs, .inr ⟨hx, h⟩ => by
    obtain ⟨ht, β, hβ⟩ := derives_of_firstOf heps hfirst hy h
    exact ⟨ht, β, by simpa using (heps x hx).append hβ⟩

section Sound

variable (hlhs : ∀ p ∈ prods, p.lhs.isNonterminal = true)
include hlhs

/-- Every symbol `compute_epsilon_derivers` marks derives the empty form. -/
theorem derives_nil_of_computeEpsilonDerivers
    (hrhs : ∀ p ∈ prods, ∀ x ∈ p.rhs, x.isEpsilon = true → x = epsilonSymbol) {x : Symbol}
    (h : computeEpsilonDerivers prods x = true) : Derives prods [x] [] := by
  refine whileChanged_induction (fun e => ∀ x, e x = true → Derives prods [x] [])
    (fun e he => foldl_invariant (fun s => ∀ x, s.1 x = true → Derives prods [x] []) epsilonStep
      prods (e, false) he fun s p hp hs => ?_) _ _ ?_ x h
  · have hupd : Derives prods p.rhs [] →
        ∀ x, Function.update s.1 p.lhs true x = true → Derives prods [x] [] := fun hd x hx => by
      rcases eq_or_ne x p.lhs with rfl | hne
      · exact Derives.head hp (hlhs _ hp) hd
      · rw [Function.update_noteq hne] at hx
        exact hs x hx
    rw [epsilonStep_eq]
    split_ifs with hc
    · refine hupd ?_
      rcases hc.2 with h2 | h3
      · rcases Bool.or_eq_true_iff.mp h2 with h2 | h2
        · rw [List.isEmpty_iff.mp h2]
          exact .refl
        · obtain ⟨z, hr, hz⟩ := isEpsilonRhs_iff.mp h2
          rw [hr, hrhs p hp z (by simp [hr]) hz]
          exact Derives.epsilon_nil
      · refine Derives.nil_of_forall fun z hz => hs z ?_
        exact ((Bool.and_eq_true _ _).mp (List.all_eq_true.mp h3 z hz)).2
    · exact hs
  · intro x hx
    rw [beq_iff_eq.mp hx]
    exact Derives.epsilon_nil

/-- A nullable symbol is ε or a nonterminal: never a terminal or `$`. -/
theorem computeEpsilonDerivers_not_terminal {x : Symbol}
    (h : computeEpsilonDerivers prods x = true) : x.isTerminal = false ∧ x.isEndOfInput = false := by
  rcases computeEpsilonDerivers_cases h with rfl | ⟨p, hp, rfl⟩
  · exact ⟨rfl, rfl⟩
  · have := hlhs p hp
    simp only [Symbol.isNonterminal_iff] at this
    simp [Symbol.isTerminal, Symbol.isEndOfInput, this]

/-- The sets of `compute_first_sets` are sound, over sound nullability. -/
theorem inFirst_of_mem_computeFirstSets {t : SymbolTable} {eps : Symbol → Bool}
    (heps : ∀ x, eps x = true → Derives prods [x] []) {x y : Symbol}
    (h : y ∈ computeFirstSets t prods eps x) : InFirst prods [x] y := by
  refine whileChanged_induction (fun f => ∀ x y, y ∈ f x → InFirst prods [x] y)
    (fun f hf => foldl_invariant (fun s => ∀ x y, y ∈ s.1 x → InFirst prods [x] y) (firstStep eps)
      prods (f, false) hf fun s p hp hs => ?_) _ _ ?_ x y h
  · intro x y hy
    obtain ⟨f, b⟩ := s
    rw [firstStep_fst] at hy
    rcases eq_or_ne x p.lhs with rfl | hx
    · have hA : ∀ {w}, Derives prods p.rhs w → Derives prods [p.lhs] w := Derives.head hp (hlhs p hp)
      rw [Function.update_same] at hy
      split at hy
      · rename_i hr
        rcases List.mem_insert_iff.mp hy with rfl | hy
        · exact .inr ⟨rfl, hA (by rw [List.isEmpty_iff.mp hr]; exact .refl)⟩
        · exact hs _ _ hy
      · rcases mem_addFirstOfSeq_iff.mp hy with hy | ⟨rfl, -, hall⟩ | ⟨hy, hfo⟩
        · exact hs _ _ hy
        · exact .inr ⟨rfl, hA (Derives.nil_of_forall fun z hz => heps z (hall z hz))⟩
        · obtain ⟨ht, β, hβ⟩ := derives_of_firstOf heps hs hy hfo
          exact .inl ⟨ht, β, hA hβ⟩
    · rw [Function.update_noteq hx] at hy
      exact hs x y hy
  · intro x y hy
    simp only [firstInit] at hy
    split at hy
    · rename_i hx
      obtain rfl := List.mem_singleton.mp hy
      rcases hx with hx | rfl | rfl
      · have ht := (List.mem_filter.mp hx).2
        refine .inl ⟨.inl ht, [], Derives.self ?_⟩
        rintro rfl
        simp [epsilonSymbol, Symbol.isTerminal] at ht
      · exact .inr ⟨rfl, Derives.epsilon_nil⟩
      · exact .inl ⟨.inr rfl, [], Derives.self (by decide)⟩
    · simp at hy

/-- The fixed points of the two loops are closed under their rules. -/
theorem closed_computed (t : SymbolTable) :
    Closed prods (computeEpsilonDerivers prods)
      (computeFirstSets t prods (computeEpsilonDerivers prods)) where
  eps_epsilon := computeEpsilonDerivers_epsilon
  eps_lhs p hp h := by
    refine computeEpsilonDerivers_closed hp (.inr (List.all_eq_true.mpr fun x hx => ?_))
    by_cases hxe : x = epsilonSymbol
    · subst hxe
      rw [computeEpsilonDerivers_epsilon]
      rfl
    · have hx' := h x (mem_erase.mpr ⟨hx, hxe⟩)
      obtain ⟨h1, h2⟩ := computeEpsilonDerivers_not_terminal hlhs hx'
      simp [h1, h2, hx']
  first_lhs p hp y hy hfo := by
    have hq := firstStep_quiet_eq (@computeFirstSets_closed t prods (computeEpsilonDerivers prods) p hp)
    split at hq
    · rename_i hr
      rw [List.isEmpty_iff.mp hr] at hfo
      exact hfo.elim
    · rw [← hq]
      exact mem_addFirstOfSeq_iff.mpr (.inr (.inr ⟨hy, hfo⟩))
  epsilon_first p hp hall := by
    have hq := firstStep_quiet_eq (@computeFirstSets_closed t prods (computeEpsilonDerivers prods) p hp)
    split at hq
    · rw [← hq]
      exact List.mem_insert_self _ _
    · rename_i hr
      rw [← hq]
      exact mem_addFirstOfSeq_iff.mpr (.inr (.inl ⟨rfl, by simpa using hr, hall⟩))

end Sound

/-! ## Grammars built through the API -/

theorem SymbolTable.mem_getTerminal {t : SymbolTable} {name : String} {tt : TokenType} {x : Symbol}
    (h : x ∈ (t.getTerminal name tt).2.symbols) : x ∈ t.symbols ∨ x = Symbol.terminal name tt := by
  unfold SymbolTable.getTerminal at h
  split at h <;> simp_all

theorem SymbolTable.mem_getNonterminal {t : SymbolTable} {name : String} {x : Symbol}
    (h : x ∈ (t.getNonterminal name).2.symbols) : x ∈ t.symbols ∨ x = Symbol.nonterminal name := by
  unfold SymbolTable.getNonterminal at h
  split at h <;> simp_all

/-- The only ε in the table of a grammar built through the API is the table's own. -/
theorem Grammar.Built.eq_epsilon_of_isEpsilon {g : Grammar} (hb : g.Built) {x : Symbol}
    (hx : x ∈ g.symbolTable.symbols) (he : x.isEpsilon = true) : x = epsilonSymbol := by
  induction hb generalizing x with
  | new =>
    simp only [Grammar.new, SymbolTable.new, List.mem_cons, List.mem_singleton,
      List.not_mem_nil, or_false] at hx
    rcases hx with rfl | rfl
    · rfl
    · simp [endOfInputSymbol, Symbol.isEpsilon] at he
  | getTerminal name tt _ ih =>
    rcases SymbolTable.mem_getTerminal hx with hx | rfl
    · exact ih hx he
    · simp [Symbol.terminal, Symbol.isEpsilon] at he
  | getNonterminal name _ ih =>
    rcases SymbolTable.mem_getNonterminal hx with hx | rfl
    · exact ih hx he
    · simp [Symbol.nonterminal, Symbol.isEpsilon] at he
  | addProduction _ _ _ ih => exact ih hx he
  | setStartSymbol _ _ ih => exact ih hx he
  | @augment g _ ih =>
    cases ha : g.isAugmented
    · cases hs : g.startSymbol with
      | none => exact ih (by rwa [Grammar.augment_of_startSymbol_eq_none hs] at hx) he
      | some s =>
        rw [Grammar.augment_symbolTable ha hs] at hx
        rcases SymbolTable.mem_getNonterminal hx with hx | rfl
        · exact ih hx he
        · simp [Symbol.nonterminal, Symbol.isEpsilon] at he
    · exact ih (by rwa [Grammar.augment_of_isAugmented ha] at hx) he
  | memo _ ht _ _ _ ih => exact ih (ht ▸ hx) he
  | reorder _ hl ih => exact ih (hl.subset hx) he

/-- Nullability and FIRST are exact on grammars built through the API whose productions rewrite
nonterminals: `derives_epsilon(X)` holds iff `X ⇒* ε`, terminals and `$` are never nullable and ε
is; for a sequence `α` of the table's symbols, `first_set(α)` holds the terminals and `$` that
begin a form derived from `α`, and ε iff `α ⇒* ε`; `first_set(X)` is the set of `[X]`; and both
loops stop within their passes. -/
theorem nullable_first_exact {g : Grammar} (hb : g.Built)
    (hlhs : ∀ p ∈ g.productions, p.lhs.isNonterminal = true) :
    (∀ X, g.constEpsilon X = true ↔ Derives g.productions [X] []) ∧
    (∀ X, X.isTerminal = true ∨ X.isEndOfInput = true → g.constEpsilon X = false) ∧
    g.constEpsilon epsilonSymbol = true ∧
    (∀ α, (∀ x ∈ α, x ∈ g.symbolTable.symbols) → ∀ y,
      y ∈ firstSetSeq g.constEpsilon g.constFirstSet α ↔ InFirst g.productions α y) ∧
    (∀ X y, y ∈ g.constFirstSet X ↔ y ∈ firstSetSeq g.constEpsilon g.constFirstSet [X]) ∧
    whileChangedStops (epsilonPass g.productions) (g.productions.length + 1)
      (fun x => x == epsilonSymbol) = true ∧
    whileChangedStops (firstPass g.constEpsilon g.productions)
      (firstFuel g.symbolTable g.productions) (firstInit g.symbolTable) = true := by
  have hrhs : ∀ p ∈ g.productions, ∀ x ∈ p.rhs, x.isEpsilon = true → x = epsilonSymbol :=
    fun p hp x hx => hb.eq_epsilon_of_isEpsilon (hb.wf.rhs_mem p hp x hx)
  have hc := closed_computed hlhs g.symbolTable
  have heps : ∀ x, g.constEpsilon x = true → Derives g.productions [x] [] :=
    fun x => derives_nil_of_computeEpsilonDerivers hlhs hrhs
  have hfirst : ∀ x y, y ∈ g.constFirstSet x → InFirst g.productions [x] y :=
    fun x y => inFirst_of_mem_computeFirstSets hlhs heps
  have hε : epsilonSymbol ∈ g.constFirstSet epsilonSymbol :=
    firstInit_subset_computeFirstSets _ (by simp [firstInit])
  refine ⟨fun X => ⟨heps X, hc.eps_of_derives⟩, fun X hX => ?_, hc.eps_epsilon,
    fun α hα y => ?_, fun X y => ?_, epsilonLoop_stops.2, firstLoop_stops.2⟩
  · cases h : g.constEpsilon X
    · rfl
    · obtain ⟨h1, h2⟩ := computeEpsilonDerivers_not_terminal hlhs h
      simp [h1, h2] at hX
  · rw [mem_firstSetSeq_iff]
    constructor
    · rintro (⟨rfl, hall⟩ | ⟨hy, hfo⟩)
      · exact .inr ⟨rfl, Derives.nil_of_forall fun x hx => heps x (hall x hx)⟩
      · exact .inl (derives_of_firstOf heps hfirst hy hfo)
    · rintro (⟨ht, β, hβ⟩ | ⟨rfl, hd⟩)
      · have hy := isEpsilon_eq_false_of_terminal_or_eof ht
        have hmem : y ∈ g.symbolTable.symbols :=
          forall_mem_of_derives hb.wf.rhs_mem hβ (fun x hx => hα x (mem_erase.mp hx).1) y
            (List.mem_cons_self y β)
        have hyy : y ∈ g.constFirstSet y := by
          rcases ht with ht | rfl
          · exact mem_computeFirstSets_self (List.mem_filter.mpr ⟨hmem, ht⟩)
          · exact firstInit_subset_computeFirstSets _ (by simp [firstInit])
        exact .inr ⟨hy, firstOf_of_erase hc.eps_epsilon (hc.firstOf_of_derives hβ hy hyy)⟩
      · exact .inl ⟨rfl, forall_of_erase hc.eps_epsilon (hc.nullable_of_derives hd)⟩
  · rw [mem_firstSetSeq_iff]
    simp only [List.mem_singleton, forall_eq, firstOf_cons, firstOf_nil, and_false, or_false]
    constructor
    · intro hy
      rcases hfirst X y hy with ⟨ht, -⟩ | ⟨rfl, hd⟩
      · exact .inr ⟨isEpsilon_eq_false_of_terminal_or_eof ht, hy⟩
      · exact .inl ⟨rfl, hc.eps_of_derives hd⟩
    · rintro (⟨rfl, hX⟩ | ⟨-, hy⟩)
      · exact hc.epsilon_mem_first hε (heps X hX)
      · exact hy

/-- `S → A x`, `A → ε`, `A → a` with start symbol `S`, the `ε` written as the table's own
symbol. -/
def nullableGrammar : Grammar :=
  let g := ((((Grammar.new.getNonterminal "S").2.getNonterminal "A").2.getTerminal "x" .identifier).2
    |>.getTerminal "a" .identifier).2
  (((g.addProduction (.nonterminal "S") [.nonterminal "A", .terminal "x" .identifier])
    |>.addProduction (.nonterminal "A") [epsilonSymbol])
    |>.addProduction (.nonterminal "A") [.terminal "a" .identifier]).setStartSymbol (.nonterminal "S")

theorem nullableGrammar_built : nullableGrammar.Built :=
  .setStartSymbol (.addProduction (.addProduction (.addProduction
    (.getTerminal _ _ (.getTerminal _ _ (.getNonterminal _ (.getNonterminal _ .new))))
    (by decide) (by decide)) (by decide) (by decide)) (by decide) (by decide)) (by decide)

theorem nullable_first_exact_nullableGrammar :
    (∀ X, nullableGrammar.constEpsilon X = true ↔ Derives nullableGrammar.productions [X] []) ∧
    (∀ X, X.isTerminal = true ∨ X.isEndOfInput = true → nullableGrammar.constEpsilon X = false) ∧
    nullableGrammar.constEpsilon epsilonSymbol = true ∧
    (∀ α, (∀ x ∈ α, x ∈ nullableGrammar.symbolTable.symbols) → ∀ y,
      y ∈ firstSetSeq nullableGrammar.constEpsilon nullableGrammar.constFirstSet α ↔
        InFirst nullableGrammar.productions α y) ∧
    (∀ X y, y ∈ nullableGrammar.constFirstSet X ↔
      y ∈ firstSetSeq nullableGrammar.constEpsilon nullableGrammar.constFirstSet [X]) ∧
    whileChangedStops (epsilonPass nullableGrammar.productions)
      (nullableGrammar.productions.length + 1) (fun x => x == epsilonSymbol) = true ∧
    whileChangedStops (firstPass nullableGrammar.constEpsilon nullableGrammar.productions)
      (firstFuel nullableGrammar.symbolTable nullableGrammar.productions)
      (firstInit nullableGrammar.symbolTable) = true :=
  nullable_first_exact nullableGrammar_built (by decide)

/-! ## Productions of terminals, and symbols outside the table -/

/-- `S → A x`, `A → a` and `x → ε` for the terminal `x`, with start symbol `S`: `add_production`
takes a terminal as left-hand side. -/
def terminalLhsGrammar : Grammar :=
  let g := ((((Grammar.new.getNonterminal "S").2.getNonterminal "A").2.getTerminal "x" .identifier).2
    |>.getTerminal "a" .identifier).2
  (((g.addProduction (.nonterminal "S") [.nonterminal "A", .terminal "x" .identifier])
    |>.addProduction (.nonterminal "A") [.terminal "a" .identifier])
    |>.addProduction (.terminal "x" .identifier) []).setStartSymbol (.nonterminal "S")

theorem terminalLhsGrammar_built : terminalLhsGrammar.Built :=
  .setStartSymbol (.addProduction (.addProduction (.addProduction
    (.getTerminal _ _ (.getTerminal _ _ (.getNonterminal _ (.getNonterminal _ .new))))
    (by decide) (by decide)) (by decide) (by decide)) (by decide) (by decide)) (by decide)

/-- On `terminalLhsGrammar` the terminal `x` is nullable although no derivation rewrites a
terminal; and the terminal `y`, which is not in the table, has an empty FIRST set although `[y]`
is a form that begins with `y`. -/
theorem nullable_first_inexact :
    terminalLhsGrammar.Built ∧ (Symbol.terminal "x" .identifier).isTerminal = true ∧
      terminalLhsGrammar.constEpsilon (.terminal "x" .identifier) = true ∧
      ¬ Derives terminalLhsGrammar.productions [.terminal "x" .identifier] [] ∧
      Symbol.terminal "y" .identifier ∉ terminalLhsGrammar.symbolTable.symbols ∧
      terminalLhsGrammar.constFirstSet (.terminal "y" .identifier) = [] ∧
      Derives terminalLhsGrammar.productions [.terminal "y" .identifier]
        [.terminal "y" .identifier] :=
  ⟨terminalLhsGrammar_built, rfl, by decide, not_derives_nil_of_not_lhs (by decide) (by decide),
    by decide, by decide, Derives.self (by decide)⟩

end Lalr1
