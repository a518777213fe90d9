import Lalr1.Derivation

/-!
# FOLLOW as the least solution of its constraints

`compute_follow_sets` starts from `{$}` for the start symbol and adds, at every position of a
nonterminal `B` in a production `A → αBβ`, `FIRST(β) − {ε}` and, when `β` is nullable,
`FOLLOW(A)`, until a pass changes nothing. Its result is the least solution of these constraints
(`FollowSolution`): it is one because the loop stops on sets closed under its rule, and it lies
inside every other one because every pass keeps the sets inside any solution
(`constFollowSet_subset`).

Over derivations: in every form derived from the start symbol, at each occurrence of a
nonterminal `B` followed by `δ`, the computed `FOLLOW(B)` holds the terminals that begin `δ`, and
`$` when `δ` is nullable (`FollowOk`, carried forward over each derivation step). So a terminal
that follows `B` in a derived form, and `$` when `B` ends one, are in `FOLLOW(B)`.

These hold on the grammars of `nullable_first_exact` (`follow_least_solution`). A production of
a terminal makes the computed sets larger than the least solution
(`terminal_lhs_follow_not_least`).
-/

namespace Lalr1

open Relation

/-- The constraints that define FOLLOW on a grammar with start symbol `S`: `$ ∈ F(S)`; and for
every production `A → αBβ` with `B` a nonterminal, `first_set(β) − {ε} ⊆ F(B)`, and
`F(A) ⊆ F(B)` when `β ⇒* ε`. -/
structure FollowSolution (g : Grammar) (S : Symbol) (F : Symbol → List Symbol) : Prop where
  start : endOfInputSymbol ∈ F S
  first : ∀ p ∈ g.productions, ∀ α B β, p.rhs = α ++ B :: β → B.isNonterminal = true →
    ∀ y ∈ firstSetSeq g.constEpsilon g.constFirstSet β, y ≠ epsilonSymbol → y ∈ F B
  follow : ∀ p ∈ g.productions, ∀ α B β, p.rhs = α ++ B :: β → B.isNonterminal = true →
    Derives g.productions β [] → F p.lhs ⊆ F B

section Least

variable {eps : Symbol → Bool} {first F : Symbol → List Symbol}

/-- What a position adds: the set it had, `FOLLOW(A)` when the rest is nullable (or empty), and
the ε-free members of `FIRST` of the rest. -/
theorem mem_followNew {f : Symbol → List Symbol} {lhs b y : Symbol} {β : List Symbol}
    (h : y ∈ followNew eps first f lhs b β) :
    y ∈ f b ∨ ((β.isEmpty || β.all eps) = true ∧ y ∈ f lhs) ∨
      (y ∈ firstSetSeq eps first β ∧ y.isEpsilon = false) := by
  have hw : y ∈ (firstSetSeq eps first β).filter (fun y => !y.isEpsilon) ∪ f b →
      y ∈ f b ∨ (y ∈ firstSetSeq eps first β ∧ y.isEpsilon = false) := by
    simp only [List.mem_union_iff, List.mem_filter, Bool.not_eq_true']
    exact Or.symm
  unfold followNew at h
  split_ifs at h with h1 h2
  · exact (List.mem_union_iff.mp h).symm.imp_right fun h => .inl ⟨by simp [h1], h⟩
  · rcases List.mem_union_iff.mp h with h | h
    · exact .inr (.inl ⟨by simp [h2], h⟩)
    · exact (hw h).imp_right .inr
  · exact (hw h).imp_right .inr

/-- A pass over a right-hand side keeps the sets inside `F` when the set of every position lies
inside `F` whenever the sets do. -/
theorem followOfRhs_subset (lhs : Symbol) :
    ∀ (xs : List Symbol) (s : (Symbol → List Symbol) × Bool),
      (∀ α b β, xs = α ++ b :: β → b.isNonterminal = true → ∀ f : Symbol → List Symbol,
        (∀ x, f x ⊆ F x) → followNew eps first f lhs b β ⊆ F b) →
      (∀ x, s.1 x ⊆ F x) → ∀ x, (followOfRhs eps first lhs xs s).1 x ⊆ F x
  | [], _, _, hs => hs
  | b :: xs, s, hpos, hs => by
    have htail : ∀ α b' β, xs = α ++ b' :: β → b'.isNonterminal = true → ∀ f : Symbol → List Symbol,
        (∀ x, f x ⊆ F x) → followNew eps first f lhs b' β ⊆ F b' :=
      fun α b' β h => hpos (b :: α) b' β (by rw [h, List.cons_append])
    rw [followOfRhs_cons]
    split
    · exact followOfRhs_subset lhs xs s htail hs
    · rename_i hb
      refine followOfRhs_subset lhs xs _ htail fun x => ?_
      rcases eq_or_ne x b with rfl | hx
      · simpa using hpos [] x xs rfl (by simpa using hb) s.1 hs
      · simpa [Function.update_noteq hx] using hs x

variable {g : Grammar} {S : Symbol} (hS : g.startSymbol = some S)
include hS

/-- The computed sets lie inside every solution, when nullability is sound. -/
theorem constFollowSet_subset (heps : ∀ x, g.constEpsilon x = true → Derives g.productions [x] [])
    (hF : FollowSolution g S F) (X : Symbol) : g.constFollowSet X ⊆ F X := by
  refine whileChanged_induction (fun f => ∀ x, f x ⊆ F x)
    (fun f hf => foldl_invariant (fun s => ∀ x, s.1 x ⊆ F x) _ g.productions (f, false) hf
      fun s p hp hs => followOfRhs_subset p.lhs p.rhs s (fun α b β h hb f hf y hy => ?_) hs) _ _ ?_ X
  · rcases mem_followNew hy with hy | ⟨hβ, hy⟩ | ⟨hy, hne⟩
    · exact hf b hy
    · refine hF.follow p hp α b β h hb (Derives.nil_of_forall fun x hx => heps x ?_) (hf _ hy)
      cases β with
      | nil => simp at hx
      | cons z β => exact List.all_eq_true.mp (by simpa using hβ) x hx
    · exact hF.first p hp α b β h hb y hy fun e => by simp [e, epsilonSymbol, Symbol.isEpsilon] at hne
  · intro x y hy
    simp only [followInit, hS, Option.some.injEq] at hy
    split at hy
    · rename_i hx
      rw [List.mem_singleton.mp hy, ← hx]
      exact hF.start
    · simp at hy

/-- The computed sets are a solution, when the sets of the two loops are closed. -/
theorem constFollowSet_solution (hc : Closed g.productions g.constEpsilon g.constFirstSet) :
    FollowSolution g S g.constFollowSet where
  start := by
    rw [Grammar.constFollowSet, hS]
    exact mem_computeFollowSets_start
  first p hp α B β h hB y hy hne := by
    have hy' : y.isEpsilon = false := by
      rcases mem_firstSetSeq_iff.mp hy with ⟨rfl, -⟩ | ⟨hy', -⟩
      · exact absurd rfl hne
      · exact hy'
    have hwithin : SetsWithin g.symbolTable g.constFirstSet := computeFirstSets_within
    unfold Grammar.constFollowSet
    rw [← computeFollowSets_closed hwithin _ hp h hB]
    exact mem_followNew_of_first hy hy'
  follow p hp α B β h hB hd := by
    have hwithin : SetsWithin g.symbolTable g.constFirstSet := computeFirstSets_within
    unfold Grammar.constFollowSet
    rw [← computeFollowSets_closed hwithin _ hp h hB]
    refine subset_followNew ?_
    have hall := forall_of_erase hc.eps_epsilon (hc.nullable_of_derives hd)
    simp [List.all_eq_true.mpr hall]

end Least

/-! ## FOLLOW over derivations -/

/-- Where an occurrence in `u ++ m ++ v` lies: in `u`, in `m` or in `v`. -/
theorem append_eq_append_cons {u m v γ δ : List Symbol} {b : Symbol}
    (h : u ++ m ++ v = γ ++ b :: δ) :
    (∃ δ₁, u = γ ++ b :: δ₁ ∧ δ = δ₁ ++ m ++ v) ∨
      (∃ m₁ m₂, m = m₁ ++ b :: m₂ ∧ γ = u ++ m₁ ∧ δ = m₂ ++ v) ∨
      (∃ v₁, v = v₁ ++ b :: δ ∧ γ = u ++ m ++ v₁) := by
  rcases List.append_eq_append_iff.mp h with ⟨a, rfl, rfl⟩ | ⟨c, hum, hc⟩
  · exact .inr (.inr ⟨a, rfl, rfl⟩)
  · rcases c with _ | ⟨x, c⟩
    · rw [List.append_nil] at hum
      exact .inr (.inr ⟨[], by simpa using hc.symm, hum.symm.trans (List.append_nil _).symm⟩)
    · obtain ⟨rfl, rfl⟩ := List.cons_eq_cons.mp hc
      rcases List.append_eq_append_iff.mp hum with ⟨a', rfl, hm⟩ | ⟨c', rfl, hbc⟩
      · exact .inr (.inl ⟨a', c, hm, rfl, rfl⟩)
      · rcases c' with _ | ⟨y, c'⟩
        · exact .inr (.inl ⟨[], c, by simpa using hbc.symm, by simp, rfl⟩)
        · obtain ⟨rfl, rfl⟩ := List.cons_eq_cons.mp hbc
          exact .inl ⟨c', rfl, rfl⟩

section Forms

variable {prods : List Production} {eps : Symbol → Bool} {first follow : Symbol → List Symbol}

/-- What FOLLOW must hold at every occurrence of a nonterminal `B` followed by `δ` in a form: the
ε-free members of `FIRST(δ)`, and `$` when `δ` is nullable. -/
def FollowOk (eps : Symbol → Bool) (first follow : Symbol → List Symbol) (w : List Symbol) :
    Prop :=
  ∀ γ B δ, w = γ ++ B :: δ → B.isNonterminal = true →
    (∀ y, y.isEpsilon = false → FirstOf eps first y δ → y ∈ follow B) ∧
      ((∀ x ∈ δ, eps x = true) → endOfInputSymbol ∈ follow B)

/-- The form of the start symbol. -/
theorem followOk_start {S : Symbol} (h : endOfInputSymbol ∈ follow S) :
    FollowOk eps first follow (erase [S]) := by
  intro γ B δ hw _
  by_cases hS : S = epsilonSymbol
  · subst hS
    simp at hw
  · rw [erase_cons_of_ne hS, erase_nil] at hw
    rcases γ with _ | ⟨c, γ⟩
    · obtain ⟨rfl, rfl⟩ := List.cons_eq_cons.mp hw
      exact ⟨fun _ _ hf => hf.elim, fun _ => h⟩
    · simp at hw

variable (hc : Closed prods eps first)
  (hfol : ∀ p ∈ prods, ∀ α B β, p.rhs = α ++ B :: β → B.isNonterminal = true →
    followNew eps first follow p.lhs B β = follow B)
include hc hfol

/-- One derivation step keeps `FollowOk`: an occurrence before the rewritten nonterminal sees a
rest whose FIRST set and nullability only shrink; an occurrence in the new right-hand side is
covered by the closed rule of its position; an occurrence after it sees the same rest. -/
theorem FollowOk.produces {w w' : List Symbol} (h : Produces prods w w')
    (hw : FollowOk eps first follow w) : FollowOk eps first follow w' := by
  cases h with
  | @rewrite p u v hp hnt =>
    intro γ B δ hw' hB
    rcases append_eq_append_cons hw' with ⟨δ₁, rfl, rfl⟩ | ⟨m₁, m₂, hm, rfl, rfl⟩ |
      ⟨v₁, rfl, rfl⟩
    · have step : Produces prods (δ₁ ++ p.lhs :: v) (δ₁ ++ erase p.rhs ++ v) := .rewrite δ₁ v hp hnt
      obtain ⟨h1, h2⟩ := hw γ B (δ₁ ++ p.lhs :: v) (by simp) hB
      exact ⟨fun y hy hf => h1 y hy (hc.firstOf_of_produces step hy hf),
        fun hall => h2 (hc.nullable_of_produces step hall)⟩
    · obtain ⟨α, β, hr, rfl⟩ := erase_eq_append_cons hm
      have hnew := hfol p hp α B β hr hB
      have hA : (∀ x ∈ erase β, eps x = true) → follow p.lhs ⊆ follow B := fun hβ => by
        rw [← hnew]
        exact subset_followNew (by simp [List.all_eq_true.mpr (forall_of_erase hc.eps_epsilon hβ)])
      obtain ⟨h1, h2⟩ := hw u p.lhs v rfl hnt
      refine ⟨fun y hy hf => ?_, fun hall => ?_⟩
      · rcases firstOf_append.mp hf with hf | ⟨hβ, hf⟩
        · rw [← hnew]
          exact mem_followNew_of_first
            (mem_firstSetSeq_iff.mpr (.inr ⟨hy, firstOf_of_erase hc.eps_epsilon hf⟩)) hy
        · exact hA hβ (h1 y hy hf)
      · rw [List.forall_mem_append] at hall
        exact hA hall.1 (h2 hall.2)
    · exact hw (u ++ p.lhs :: v₁) B δ (by simp) hB

/-- Every form derived from a form that satisfies `FollowOk` does. -/
theorem followOk_of_derives {w w' : List Symbol} (h : ReflTransGen (Produces prods) w w')
    (hw : FollowOk eps first follow w) : FollowOk eps first follow w' := by
  induction h with
  | refl => exact hw
  | tail _ step ih => exact FollowOk.produces hc hfol step ih

end Forms

/-- On grammars built through the API whose productions rewrite nonterminals, with start symbol
`S`, the computed FOLLOW sets are the least solution of their constraints; a terminal `a` with
`S ⇒* γBaδ` is in `FOLLOW(B)`, and `$` is when `S ⇒* γB`; and the loop stops within its
passes. -/
theorem follow_least_solution {g : Grammar} {S : Symbol} (hb : g.Built)
    (hS : g.startSymbol = some S) (hlhs : ∀ p ∈ g.productions, p.lhs.isNonterminal = true) :
    FollowSolution g S g.constFollowSet ∧
    (∀ F, FollowSolution g S F → ∀ X, g.constFollowSet X ⊆ F X) ∧
    (∀ γ B a δ, B.isNonterminal = true → a.isTerminal = true →
      Derives g.productions [S] (γ ++ B :: a :: δ) → a ∈ g.constFollowSet B) ∧
    (∀ γ B, B.isNonterminal = true → Derives g.productions [S] (γ ++ [B]) →
      endOfInputSymbol ∈ g.constFollowSet B) ∧
    whileChangedStops (followPass g.constEpsilon g.constFirstSet g.productions)
      (followFuel g.symbolTable g.productions) (followInit g.startSymbol) = true := by
  have hc : Closed g.productions g.constEpsilon g.constFirstSet := closed_computed hlhs g.symbolTable
  have heps : ∀ x, g.constEpsilon x = true → Derives g.productions [x] [] := fun x =>
    derives_nil_of_computeEpsilonDerivers hlhs
      (fun p hp x hx => hb.eq_epsilon_of_isEpsilon (hb.wf.rhs_mem p hp x hx))
  have hsol := constFollowSet_solution hS hc
  have hok : ∀ w, Derives g.productions [S] w →
      FollowOk g.constEpsilon g.constFirstSet g.constFollowSet w := fun w hd =>
    followOk_of_derives hc (fun p hp α B β h hB => computeFollowSets_closed computeFirstSets_within _ hp h hB)
      hd (followOk_start hsol.start)
  refine ⟨hsol, fun F hF X => constFollowSet_subset hS heps hF X, fun γ B a δ hB ha hd => ?_,
    fun γ B hB hd => (hok _ hd γ B [] rfl hB).2 (by simp),
    (followLoop_stops computeFirstSets_within _).2⟩
  have hmem : a ∈ g.symbolTable.symbols :=
    forall_mem_of_derives hb.wf.rhs_mem hd
      (fun x hx => hb.wf.start_mem x (by rw [hS, List.mem_singleton.mp (mem_erase.mp hx).1]))
      a (by simp)
  exact (hok _ hd γ B (a :: δ) rfl hB).1 a (isEpsilon_eq_false_of_terminal_or_eof (.inl ha))
    (.inl (mem_computeFirstSets_self (List.mem_filter.mpr ⟨hmem, ha⟩)))

theorem follow_least_solution_nullableGrammar :
    FollowSolution nullableGrammar (.nonterminal "S") nullableGrammar.constFollowSet ∧
    (∀ F, FollowSolution nullableGrammar (.nonterminal "S") F →
      ∀ X, nullableGrammar.constFollowSet X ⊆ F X) ∧
    (∀ γ B a δ, B.isNonterminal = true → a.isTerminal = true →
      Derives nullableGrammar.productions [.nonterminal "S"] (γ ++ B :: a :: δ) →
        a ∈ nullableGrammar.constFollowSet B) ∧
    (∀ γ B, B.isNonterminal = true → Derives nullableGrammar.productions [.nonterminal "S"] (γ ++ [B]) →
      endOfInputSymbol ∈ nullableGrammar.constFollowSet B) ∧
    whileChangedStops (followPass nullableGrammar.constEpsilon nullableGrammar.constFirstSet
      nullableGrammar.productions) (followFuel nullableGrammar.symbolTable nullableGrammar.productions)
      (followInit nullableGrammar.startSymbol) = true :=
  follow_least_solution nullableGrammar_built rfl (by decide)

/-! ## Productions of terminals -/

/-- On `terminalLhsGrammar` the computed `FOLLOW(A)` holds `$` and a solution does not: `x` is
nullable for the loops, so `FOLLOW(S)` is added to `FOLLOW(A)` for `S → A x`, although no
derivation erases `x`. -/
theorem terminal_lhs_follow_not_least :
    terminalLhsGrammar.Built ∧ terminalLhsGrammar.startSymbol = some (.nonterminal "S") ∧
      ∃ F, FollowSolution terminalLhsGrammar (.nonterminal "S") F ∧
        endOfInputSymbol ∈ terminalLhsGrammar.constFollowSet (.nonterminal "A") ∧
        endOfInputSymbol ∉ F (.nonterminal "A") := by
  have hprods : terminalLhsGrammar.productions =
      [⟨.nonterminal "S", [.nonterminal "A", .terminal "x" .identifier]⟩,
        ⟨.nonterminal "A", [.terminal "a" .identifier]⟩, ⟨.terminal "x" .identifier, []⟩] := rfl
  have hx : ¬ Derives terminalLhsGrammar.productions [.terminal "x" .identifier] [] :=
    not_derives_nil_of_not_lhs (by decide) (by decide)
  refine ⟨terminalLhsGrammar_built, rfl, fun X => if X = .nonterminal "S" then [endOfInputSymbol]
    else if X = .nonterminal "A" then [.terminal "x" .identifier] else [], ⟨by decide, ?_, ?_⟩,
    by decide, by decide⟩
  all_goals
    intro p hp α B β h hB
    rw [hprods] at hp
    simp only [List.mem_cons, List.mem_singleton, List.not_mem_nil, or_false] at hp
    rcases hp with rfl | rfl | rfl <;> rcases α with _ | ⟨c, _ | ⟨c', α⟩⟩ <;>
      simp only [List.nil_append, List.cons_append, List.cons.injEq, List.nil_eq,
        List.append_eq_nil, reduceCtorEq, and_false, false_and] at h
  · obtain ⟨rfl, rfl⟩ := h
    decide
  · obtain ⟨-, rfl, -⟩ := h
    simp [Symbol.terminal, Symbol.isNonterminal] at hB
  · obtain ⟨rfl, -⟩ := h
    simp [Symbol.terminal, Symbol.isNonterminal] at hB
  · obtain ⟨rfl, rfl⟩ := h
    exact fun hd => absurd hd hx
  · obtain ⟨-, rfl, -⟩ := h
    simp [Symbol.terminal, Symbol.isNonterminal] at hB
  · obtain ⟨rfl, -⟩ := h
    simp [Symbol.terminal, Symbol.isNonterminal] at hB

end Lalr1
