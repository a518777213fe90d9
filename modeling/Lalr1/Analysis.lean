import Mathlib.Algebra.Order.Ring.Nat
import Mathlib.Logic.Function.Basic
import Lalr1.Grammar

/-!
# Nullability, FIRST and FOLLOW

`compute_epsilon_derivers`, `compute_first_sets`, `compute_follow_sets`, `first_set(vector)` of
`grammar.cpp`, and the memoising queries `derives_epsilon`, `first_set` and `follow_set`.

Each `while (changed)` loop is `whileChanged`: a pass reports whether it changed anything, and the
loop runs passes until one changes nothing. The passes only add elements to finitely many finite
sets, so a pass that changes something makes a bounded measure grow; the fuel given here is that
bound plus one (`Lalr1.Fixpoint` proves it enough).

Sets are lists. `std::set::insert` is `List.insert`, inserting every element of `a` into `b` is
`a ∪ b`, and the size test that sets `changed` compares lengths.
-/

namespace Lalr1

/-- `changed = true; while (changed) { changed = false; pass }`, with at most `fuel` passes. -/
def whileChanged {σ : Type} (pass : σ → σ × Bool) : Nat → σ → σ
  | 0, s => s
  | n + 1, s =>
    match pass s with
    | (s', true) => whileChanged pass n s'
    | (s', false) => s'

/-- Whether the loop reaches a pass that changes nothing within `fuel` passes. The source's loop
has no fuel; when this holds it stops there, on the state `whileChanged` returns. -/
def whileChangedStops {σ : Type} (pass : σ → σ × Bool) : Nat → σ → Bool
  | 0, _ => false
  | n + 1, s =>
    match pass s with
    | (s', true) => whileChangedStops pass n s'
    | (_, false) => true

/-- A property that every pass keeps holds after the loop. -/
theorem whileChanged_induction {σ : Type} {pass : σ → σ × Bool} (P : σ → Prop)
    (hstep : ∀ s, P s → P (pass s).1) : ∀ n s, P s → P (whileChanged pass n s)
  | 0, _, h => h
  | n + 1, s, h => by
    unfold whileChanged
    split
    · exact whileChanged_induction P hstep n _ (by simpa [*] using hstep s h)
    · simpa [*] using hstep s h

/-- Enough fuel: when every changing pass makes a measure grow that stays below `B` (on states
satisfying an invariant), a loop started with more than `B - μ s` passes ends with a pass that
changed nothing, and so stops. -/
theorem whileChanged_stable {σ : Type} {pass : σ → σ × Bool} (Inv : σ → Prop) (μ : σ → Nat)
    (B : Nat) (hinv : ∀ s, Inv s → Inv (pass s).1)
    (hgrow : ∀ s, Inv s → (pass s).2 = true → μ s < μ (pass s).1)
    (hbound : ∀ s, Inv s → μ s ≤ B) :
    ∀ n s, Inv s → B < n + μ s →
      ∃ r, Inv r ∧ (pass r).2 = false ∧ whileChanged pass n s = (pass r).1 ∧
        whileChangedStops pass n s = true
  | 0, s, hs, hn => absurd (hbound s hs) (by omega)
  | n + 1, s, hs, hn => by
    unfold whileChanged whileChangedStops
    cases hp : pass s with
    | mk s' c =>
      cases c with
      | false => exact ⟨s, hs, by simp [hp], by simp [hp], rfl⟩
      | true =>
        have hlt := hgrow s hs (by simp [hp])
        simp only [hp] at hlt ⊢
        exact whileChanged_stable Inv μ B hinv hgrow hbound n s'
          (by simpa [hp] using hinv s hs) (by omega)

/-- A property kept by every step of a fold holds after it. -/
theorem foldl_invariant {α β : Type} (P : β → Prop) (f : β → α → β) :
    ∀ (l : List α) (b : β), P b → (∀ b, ∀ a ∈ l, P b → P (f b a)) → P (l.foldl f b)
  | [], _, h, _ => h
  | a :: l, b, h, hf =>
    foldl_invariant P f l (f b a) (hf b a (List.mem_cons_self a l) h)
      fun b' a' ha' => hf b' a' (List.mem_cons_of_mem a ha')

/-- The measure of the loops' termination arguments: counting, over a fixed list, the members
that a growing state holds. -/
theorem countP_lt_countP {α : Type} {p q : α → Bool} :
    ∀ {l : List α}, (∀ x ∈ l, p x → q x) → (∃ x ∈ l, q x ∧ ¬p x) → l.countP p < l.countP q
  | [], _, ⟨_, hx, _⟩ => absurd hx (List.not_mem_nil _)
  | y :: l, hpq, ⟨x, hx, hqx, hpx⟩ => by
    have htail : ∀ z ∈ l, p z → q z := fun z hz => hpq z (List.mem_cons_of_mem y hz)
    have hy : (if p y then 1 else 0) ≤ (if q y then 1 else 0) := by
      have := hpq y (List.mem_cons_self y l)
      split <;> simp_all
    simp only [List.countP_cons]
    rcases List.mem_cons.mp hx with rfl | hx
    · have := List.countP_mono_left htail
      simp only [hqx, Bool.eq_false_iff.mpr hpx, if_true, Bool.false_eq_true, if_false]
      omega
    · have := countP_lt_countP htail ⟨x, hx, hqx, hpx⟩
      omega

/-! ## Nullability -/

/-- The right-hand side `[ε]`, which the source treats as `A → ε`. -/
def isEpsilonRhs : List Symbol → Bool
  | [x] => x.isEpsilon
  | _ => false

/-- One production of the pass of `compute_epsilon_derivers`. -/
def epsilonStep (s : (Symbol → Bool) × Bool) (p : Production) : (Symbol → Bool) × Bool :=
  if s.1 p.lhs then s
  else if p.rhs.isEmpty || isEpsilonRhs p.rhs then (Function.update s.1 p.lhs true, true)
  else if p.rhs.all (fun x => !(x.isTerminal || x.isEndOfInput) && s.1 x) then
    (Function.update s.1 p.lhs true, true)
  else s

/-- One pass over the productions, in order. -/
def epsilonPass (prods : List Production) (eps : Symbol → Bool) : (Symbol → Bool) × Bool :=
  prods.foldl epsilonStep (eps, false)

/-- `Grammar::compute_epsilon_derivers`: nonterminals start `false` (the map's default),
ε starts `true`. Every changing pass makes one more left-hand side nullable. -/
def computeEpsilonDerivers (prods : List Production) : Symbol → Bool :=
  whileChanged (epsilonPass prods) (prods.length + 1) (fun x => x == epsilonSymbol)

/-! ## FIRST -/

/-- The loop over `X₁ … Xₖ` shared by `compute_first_sets` and `first_set(vector)`: add
`FIRST(Xᵢ) − {ε}` while the symbols before `Xᵢ` derive ε, and ε after the last one if it
derives ε too. -/
def addFirstOfSeq (eps : Symbol → Bool) (first : Symbol → List Symbol) :
    List Symbol → List Symbol → List Symbol
  | [], acc => acc
  | x :: rest, acc =>
    let acc' := (first x).filter (fun y => !y.isEpsilon) ∪ acc
    if !eps x then acc'
    else
      match rest with
      | [] => List.insert epsilonSymbol acc'
      | _ :: _ => addFirstOfSeq eps first rest acc'

/-- One production of the pass of `compute_first_sets`. `first_lhs` is a reference into the map,
so a right-hand side symbol equal to the left-hand side reads the set being filled; adding that
set's elements to itself changes nothing, so reading the value before the production is the
same. -/
def firstStep (eps : Symbol → Bool) (s : (Symbol → List Symbol) × Bool) (p : Production) :
    (Symbol → List Symbol) × Bool :=
  let old := s.1 p.lhs
  let new :=
    if p.rhs.isEmpty then List.insert epsilonSymbol old
    else addFirstOfSeq eps s.1 p.rhs old
  (Function.update s.1 p.lhs new, s.2 || new.length != old.length)

def firstPass (eps : Symbol → Bool) (prods : List Production) (first : Symbol → List Symbol) :
    (Symbol → List Symbol) × Bool :=
  prods.foldl (firstStep eps) (first, false)

/-- The seed of `compute_first_sets`: `{t}` for the table's terminals, `{ε}`, `{$}`, and `{}`
for everything else (the table's nonterminals are set to `{}` explicitly). -/
def firstInit (t : SymbolTable) (x : Symbol) : List Symbol :=
  if x ∈ t.getTerminals ∨ x = epsilonSymbol ∨ x = endOfInputSymbol then [x] else []

/-- The number of passes after which `compute_first_sets` is stable: every set of a left-hand
side lies within the table's terminals, ε and `$`. -/
def firstFuel (t : SymbolTable) (prods : List Production) : Nat :=
  prods.length * (t.symbols.length + 2) + 1

/-- `Grammar::compute_first_sets`, given the nullability it reads through `derives_epsilon`. -/
def computeFirstSets (t : SymbolTable) (prods : List Production) (eps : Symbol → Bool) :
    Symbol → List Symbol :=
  whileChanged (firstPass eps prods) (firstFuel t prods) (firstInit t)

/-- `Grammar::first_set(const std::vector<SymbolPtr>&)` on given FIRST sets and nullability. -/
def firstSetSeq (eps : Symbol → Bool) (first : Symbol → List Symbol) (xs : List Symbol) :
    List Symbol :=
  let r := addFirstOfSeq eps first xs []
  if xs.isEmpty || xs.all eps then List.insert epsilonSymbol r else r

/-! ## FOLLOW -/

/-- The loop over the positions of one production `A → X₁ … Xₖ` in `compute_follow_sets`: at a
nonterminal `B` with suffix `β`, add `FIRST(β) − {ε}` and, when `β` derives ε (or is empty),
`FOLLOW(A)`. As in `firstStep`, reading `FOLLOW(A)` before the update is the same as reading
the aliased set when `A = B`. -/
def followOfRhs (eps : Symbol → Bool) (first : Symbol → List Symbol) (lhs : Symbol) :
    List Symbol → (Symbol → List Symbol) × Bool → (Symbol → List Symbol) × Bool
  | [], s => s
  | b :: beta, s =>
    if !b.isNonterminal then followOfRhs eps first lhs beta s
    else
      let old := s.1 b
      let new :=
        if beta.isEmpty then s.1 lhs ∪ old
        else
          let withFirst := (firstSetSeq eps first beta).filter (fun y => !y.isEpsilon) ∪ old
          if beta.all eps then s.1 lhs ∪ withFirst else withFirst
      followOfRhs eps first lhs beta
        (Function.update s.1 b new, s.2 || new.length != old.length)

def followPass (eps : Symbol → Bool) (first : Symbol → List Symbol) (prods : List Production)
    (follow : Symbol → List Symbol) : (Symbol → List Symbol) × Bool :=
  prods.foldl (fun s p => followOfRhs eps first p.lhs p.rhs s) (follow, false)

/-- The seed of `compute_follow_sets`: `{$}` for the start symbol, `{}` otherwise. -/
def followInit (start : Option Symbol) (x : Symbol) : List Symbol :=
  if start = some x then [endOfInputSymbol] else []

/-- The number of passes after which `compute_follow_sets` is stable: one set per right-hand
side position, each within the table's terminals, ε and `$`. -/
def followFuel (t : SymbolTable) (prods : List Production) : Nat :=
  (prods.map (fun p => p.rhs.length)).sum * (t.symbols.length + 2) + 1

/-- `Grammar::compute_follow_sets`, given the FIRST sets and nullability it reads. -/
def computeFollowSets (t : SymbolTable) (prods : List Production) (start : Option Symbol)
    (eps : Symbol → Bool) (first : Symbol → List Symbol) : Symbol → List Symbol :=
  whileChanged (followPass eps first prods) (followFuel t prods) (followInit start)

/-! ## The memoising queries -/

namespace Grammar

/-- The cached nullability, computed on first use. -/
def withEpsilon (g : Grammar) : Grammar :=
  if g.epsilonComputed then g
  else { g with epsilonDerivers := computeEpsilonDerivers g.productions, epsilonComputed := true }

/-- `compute_first_sets` when `first_sets_computed_` is false. The source fills the nullability
cache at its first `derives_epsilon` call; filling it first changes no value, since nullability
depends on the productions only. -/
def withFirst (g : Grammar) : Grammar :=
  if g.firstSetsComputed then g
  else
    let g := g.withEpsilon
    { g with
      firstSets := computeFirstSets g.symbolTable g.productions g.epsilonDerivers
      firstSetsComputed := true }

/-- `compute_follow_sets` when `follow_sets_computed_` is false. -/
def withFollow (g : Grammar) : Grammar :=
  if g.followSetsComputed then g
  else
    let g := g.withFirst
    { g with
      followSets := computeFollowSets g.symbolTable g.productions g.startSymbol
        g.epsilonDerivers g.firstSets
      followSetsComputed := true }

/-- `Grammar::derives_epsilon(symbol)`. -/
def derivesEpsilon (g : Grammar) (x : Symbol) : Bool × Grammar :=
  (g.withEpsilon.epsilonDerivers x, g.withEpsilon)

/-- `Grammar::first_set(symbol)`. -/
def firstSet (g : Grammar) (x : Symbol) : List Symbol × Grammar :=
  (g.withFirst.firstSets x, g.withFirst)

/-- `Grammar::first_set(vector)`: an empty sequence reads no cache. -/
def firstSetOfSeq (g : Grammar) (xs : List Symbol) : List Symbol × Grammar :=
  if xs.isEmpty then ([epsilonSymbol], g)
  else (firstSetSeq g.withFirst.epsilonDerivers g.withFirst.firstSets xs, g.withFirst)

/-- `Grammar::follow_set(symbol)`. -/
def followSet (g : Grammar) (x : Symbol) : List Symbol × Grammar :=
  (g.withFollow.followSets x, g.withFollow)

/-! The `const` overloads that the table generator calls -/

/-- Modelled from the spec: the `const` overloads of `derives_epsilon`, `first_set` and
`follow_set` are declared in `grammar.h` but have no body in the source. §4.2 asks for the
fixed points recomputed on first read after any change; they are modelled as those fixed points
on the grammar's current productions, table and start symbol, which is what the memoising
overloads return on a cleared cache. -/
def constEpsilon (g : Grammar) : Symbol → Bool := computeEpsilonDerivers g.productions

/-- Modelled from the spec: see `constEpsilon`. -/
def constFirstSet (g : Grammar) : Symbol → List Symbol :=
  computeFirstSets g.symbolTable g.productions g.constEpsilon

/-- Modelled from the spec: see `constEpsilon`. -/
def constFollowSet (g : Grammar) : Symbol → List Symbol :=
  computeFollowSets g.symbolTable g.productions g.startSymbol g.constEpsilon g.constFirstSet

end Grammar

end Lalr1
