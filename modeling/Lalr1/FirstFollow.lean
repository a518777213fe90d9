import Lalr1.Analysis

/-!
# What the FIRST and FOLLOW sets hold

When right-hand sides hold only terminals and nonterminals, `compute_first_sets` gives a terminal
or a nonterminal a set of terminals and ε, and `compute_follow_sets` gives every symbol a set of
terminals and `$` (`computeFollowSets_content`): the lookaheads of reductions are cells of the
action table's terminal columns.
-/

namespace Lalr1

variable {eps : Symbol → Bool} {first : Symbol → List Symbol}

/-- A terminal or a nonterminal: what right-hand sides may hold. -/
def Symbol.IsGrammarSymbol (x : Symbol) : Prop := x.isTerminal = true ∨ x.isNonterminal = true

instance : DecidablePred Symbol.IsGrammarSymbol :=
  fun x => inferInstanceAs (Decidable (x.isTerminal = true ∨ x.isNonterminal = true))

theorem mem_addFirstOfSeq {y : Symbol} : ∀ {xs acc : List Symbol},
    y ∈ addFirstOfSeq eps first xs acc →
      y ∈ acc ∨ y = epsilonSymbol ∨ ∃ x ∈ xs, y ∈ first x ∧ y.isEpsilon = false
  | [], _, h => .inl h
  | x :: rest, acc, h => by
    have hacc : y ∈ (first x).filter (fun y => !y.isEpsilon) ∪ acc →
        y ∈ acc ∨ y = epsilonSymbol ∨ ∃ x' ∈ x :: rest, y ∈ first x' ∧ y.isEpsilon = false := by
      simp only [List.mem_union_iff, List.mem_filter, Bool.not_eq_true']
      rintro (⟨h1, h2⟩ | h)
      · exact .inr (.inr ⟨x, List.mem_cons_self _ _, h1, h2⟩)
      · exact .inl h
    unfold addFirstOfSeq at h
    split at h
    · exact hacc h
    · split at h
      · rcases List.mem_insert_iff.mp h with rfl | h
        · exact .inr (.inl rfl)
        · exact hacc h
      · rcases mem_addFirstOfSeq h with h | h | ⟨x', hx', h1, h2⟩
        · exact hacc h
        · exact .inr (.inl h)
        · exact .inr (.inr ⟨x', List.mem_cons_of_mem _ hx', h1, h2⟩)

theorem mem_firstSetSeq {y : Symbol} {xs : List Symbol} (h : y ∈ firstSetSeq eps first xs) :
    y = epsilonSymbol ∨ ∃ x ∈ xs, y ∈ first x ∧ y.isEpsilon = false := by
  have key : y ∈ addFirstOfSeq eps first xs [] → _ := fun h =>
    (mem_addFirstOfSeq h).resolve_left (List.not_mem_nil y)
  unfold firstSetSeq at h
  split at h
  · rcases List.mem_insert_iff.mp h with rfl | h
    · exact .inl rfl
    · exact key h
  · exact key h

variable {t : SymbolTable} {prods : List Production}

/-- FIRST sets of terminals and nonterminals that hold only terminals and ε. -/
def FirstContent (first : Symbol → List Symbol) : Prop :=
  ∀ x, x.IsGrammarSymbol → ∀ y ∈ first x, y.isTerminal = true ∨ y = epsilonSymbol

theorem firstStep_content (hrhs : ∀ p ∈ prods, ∀ x ∈ p.rhs, x.IsGrammarSymbol)
    (s : (Symbol → List Symbol) × Bool) (p : Production) (hp : p ∈ prods) (hs : FirstContent s.1) :
    FirstContent (firstStep eps s p).1 := by
  intro x hx y hy
  simp only [firstStep] at hy
  by_cases hxl : x = p.lhs
  · subst hxl
    simp only [Function.update_same] at hy
    have hold : y ∈ s.1 p.lhs → _ := hs p.lhs hx y
    split at hy
    · rcases List.mem_insert_iff.mp hy with rfl | hy
      · exact .inr rfl
      · exact hold hy
    · rcases mem_addFirstOfSeq hy with hy | rfl | ⟨z, hz, hyz, hne⟩
      · exact hold hy
      · exact .inr rfl
      · rcases hs z (hrhs p hp z hz) y hyz with h | rfl
        · exact .inl h
        · simp [epsilonSymbol, Symbol.isEpsilon] at hne
  · rw [Function.update_noteq hxl] at hy
    exact hs x hx y hy

/-- `compute_first_sets` gives terminals and nonterminals sets of terminals and ε. -/
theorem computeFirstSets_content (hrhs : ∀ p ∈ prods, ∀ x ∈ p.rhs, x.IsGrammarSymbol) :
    FirstContent (computeFirstSets t prods eps) := by
  refine whileChanged_induction FirstContent (fun f hf => ?_) _ _ ?_
  · exact foldl_invariant (fun s => FirstContent s.1) _ prods (f, false) hf
      fun s p hp hs => firstStep_content hrhs s p hp hs
  · intro x hx y hy
    simp only [firstInit] at hy
    split at hy
    · rename_i hmem
      obtain rfl := List.mem_singleton.mp hy
      rcases hx with hx | hx
      · exact .inl hx
      · rcases hmem with hmem | rfl | rfl
        · exact .inl (List.mem_filter.mp hmem).2
        · exact .inr rfl
        · simp [endOfInputSymbol, Symbol.isNonterminal] at hx
    · simp at hy

/-- FOLLOW sets that hold only terminals and `$`. -/
def FollowContent (follow : Symbol → List Symbol) : Prop :=
  ∀ x, ∀ y ∈ follow x, y.isTerminal = true ∨ y = endOfInputSymbol

theorem followOfRhs_content (hfirst : FirstContent first) (lhs : Symbol) :
    ∀ (beta : List Symbol) (s : (Symbol → List Symbol) × Bool), (∀ x ∈ beta, x.IsGrammarSymbol) →
      FollowContent s.1 → FollowContent (followOfRhs eps first lhs beta s).1
  | [], _, _, hs => hs
  | b :: beta, s, hb, hs => by
    have hbeta : ∀ x ∈ beta, x.IsGrammarSymbol := fun x hx => hb x (List.mem_cons_of_mem b hx)
    unfold followOfRhs
    split
    · exact followOfRhs_content hfirst lhs beta s hbeta hs
    · refine followOfRhs_content hfirst lhs beta _ hbeta fun x y hy => ?_
      by_cases hxb : x = b
      · subst hxb
        simp only [Function.update_same] at hy
        have hseq : y ∈ (firstSetSeq eps first beta).filter (fun y => !y.isEpsilon) →
            y.isTerminal = true ∨ y = endOfInputSymbol := by
          rw [List.mem_filter]
          rintro ⟨hy, hne⟩
          rcases mem_firstSetSeq hy with rfl | ⟨z, hz, hyz, -⟩
          · simp [epsilonSymbol, Symbol.isEpsilon] at hne
          · rcases hfirst z (hbeta z hz) y hyz with h | rfl
            · exact .inl h
            · simp [epsilonSymbol, Symbol.isEpsilon] at hne
        split at hy
        · rcases List.mem_union_iff.mp hy with hy | hy <;> exact hs _ y hy
        · split at hy
          · rcases List.mem_union_iff.mp hy with hy | hy
            · exact hs _ y hy
            · rcases List.mem_union_iff.mp hy with hy | hy
              · exact hseq hy
              · exact hs _ y hy
          · rcases List.mem_union_iff.mp hy with hy | hy
            · exact hseq hy
            · exact hs _ y hy
      · simp only [Function.update_noteq hxb] at hy
        exact hs x y hy

/-- `compute_follow_sets` gives every symbol a set of terminals and `$`. -/
theorem computeFollowSets_content (hrhs : ∀ p ∈ prods, ∀ x ∈ p.rhs, x.IsGrammarSymbol)
    (hfirst : FirstContent first) (start : Option Symbol) :
    FollowContent (computeFollowSets t prods start eps first) := by
  refine whileChanged_induction FollowContent (fun f hf => ?_) _ _ ?_
  · exact foldl_invariant (fun s => FollowContent s.1) _ prods (f, false) hf
      fun s p hp hs => followOfRhs_content hfirst p.lhs p.rhs s (hrhs p hp) hs
  · intro x y hy
    simp only [followInit] at hy
    split at hy
    · exact .inr (List.mem_singleton.mp hy)
    · simp at hy

theorem constFollowSet_content {g : Grammar}
    (hrhs : ∀ p ∈ g.productions, ∀ x ∈ p.rhs, x.IsGrammarSymbol) :
    FollowContent g.constFollowSet :=
  computeFollowSets_content hrhs (computeFirstSets_content hrhs) _

end Lalr1
