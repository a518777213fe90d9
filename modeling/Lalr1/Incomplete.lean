import Lalr1.TableWrites
import Lalr1.Augment

/-!
# Grammars the generator does not check

`generate_table` checks only `is_augmented()`. A grammar without validation errors always gets a
table (`generateTable_ok_of_valid`), but so do grammars that `get_validation_errors` rejects:
an augmented grammar that uses a nonterminal no production defines, and one that had no
production before `augment()` (`generateTable_accepts_incomplete`).

`build_lalr_states` gives an item with a nonterminal `B` after the dot the lookaheads `FIRST(B)`,
which is empty when `B` derives no terminal string. Such an item is missing from the LALR state,
and the goto entries are read from the LALR state's transition symbols, so the table lacks the
goto entry the automaton has (`getGoto_drops_unproductive`), even on a grammar without
validation errors.
-/

namespace Lalr1

open LALR1Generator

/-- A grammar without validation errors, once augmented, gets a generator and a table. -/
theorem generateTable_ok_of_valid {g : Grammar} (h : g.getValidationErrors = [])
    (addr : Nat → Nat) :
    ∃ gen T, create g.augment = some gen ∧ gen.generateTable addr = .ok T := by
  obtain ⟨h1, h2⟩ := List.append_eq_nil.mp (List.append_eq_nil.mp h).1
  have hS : g.startSymbol.isSome := by
    cases hs : g.startSymbol
    · simp [hs] at h1
    · rfl
  have hprods : g.productions ≠ [] := fun hp => by simp [hp] at h2
  have hprods' : g.augment.productions ≠ [] := by
    cases ha : g.isAugmented
    · obtain ⟨S, hS⟩ := Option.isSome_iff_exists.mp hS
      simp [Grammar.augment_productions ha hS]
    · rwa [Grammar.augment_of_isAugmented ha]
  obtain ⟨A, hA, -⟩ := LR0Automaton.build_spec hprods'
  obtain ⟨T, hT⟩ := generateTable_ok ⟨g.augment, A⟩ addr
    (Grammar.augment_isAugmented_iff.mpr (.inr hS))
  exact ⟨_, T, by simp [create, hA], hT⟩

/-- `S → A x` with start symbol `S`, where no production defines `A`. -/
def undefinedGrammar : Grammar :=
  let (s, g) := Grammar.new.getNonterminal "S"
  let (a, g) := g.getNonterminal "A"
  let (x, g) := g.getTerminal "x" .identifier
  (g.addProduction s [a, x]).setStartSymbol s

/-- The start symbol `S` and no production. -/
def noProductionGrammar : Grammar :=
  let (s, g) := Grammar.new.getNonterminal "S"
  g.setStartSymbol s

/-- The augmented grammar has a table whenever the generator's constructor succeeds. -/
theorem generateTable_of_create {g : Grammar} {gen : LALR1Generator} (h : create g.augment = some gen)
    (hS : g.startSymbol.isSome) (addr : Nat → Nat) : ∃ T, gen.generateTable addr = .ok T :=
  generateTable_ok gen addr
    (by rw [grammar_of_create h]; exact Grammar.augment_isAugmented_iff.mpr (.inr hS))

/-- Two grammars with validation errors, one using an undefined nonterminal and one without
productions, get a generator and a table once augmented. -/
theorem generateTable_accepts_incomplete (addr : Nat → Nat) :
    undefinedGrammar.getValidationErrors = ["Undefined nonterminal: A"] ∧
    noProductionGrammar.getValidationErrors = ["No productions defined"] ∧
    (∃ gen T, create undefinedGrammar.augment = some gen ∧ gen.generateTable addr = .ok T) ∧
    (∃ gen T, create noProductionGrammar.augment = some gen ∧ gen.generateTable addr = .ok T) := by
  obtain ⟨gen, hgen⟩ : ∃ gen, create undefinedGrammar.augment = some gen :=
    Option.isSome_iff_exists.mp (by decide)
  obtain ⟨gen', hgen'⟩ : ∃ gen, create noProductionGrammar.augment = some gen :=
    Option.isSome_iff_exists.mp (by decide)
  obtain ⟨T, hT⟩ := generateTable_of_create hgen rfl addr
  obtain ⟨T', hT'⟩ := generateTable_of_create hgen' rfl addr
  exact ⟨by decide, by decide, ⟨gen, T, hgen, hT⟩, ⟨gen', T', hgen', hT'⟩⟩

/-! ## Goto entries of unproductive nonterminals -/

/-- `S → A b | b`, `A → A c` with start symbol `S`: every nonterminal is defined, and `A` derives
no terminal string. -/
def unproductiveGrammar : Grammar :=
  let (s, g) := Grammar.new.getNonterminal "S"
  let (a, g) := g.getNonterminal "A"
  let (b, g) := g.getTerminal "b" .identifier
  let (c, g) := g.getTerminal "c" .identifier
  (((g.addProduction s [a, b]).addProduction s [b]).addProduction a [a, c]).setStartSymbol s

/-- On `unproductiveGrammar`, whatever the allocation order, state 0 of the automaton has a
transition on `A`, and the table has no goto entry for it. -/
theorem getGoto_drops_unproductive (addr : Nat → Nat) :
    unproductiveGrammar.getValidationErrors = [] ∧
    ∃ gen T, create unproductiveGrammar.augment = some gen ∧ gen.generateTable addr = .ok T ∧
      (gen.lr0Automaton.getTransition 0 (.nonterminal "A")).isSome ∧
      T.getGoto 0 (.nonterminal "A") = none := by
  obtain ⟨gen, hgen⟩ : ∃ gen, create unproductiveGrammar.augment = some gen :=
    Option.isSome_iff_exists.mp (by decide)
  have hstates := (by decide : (create unproductiveGrammar.augment).all (fun gen =>
    (gen.lr0Automaton.getTransition 0 (.nonterminal "A")).isSome ∧
    ∀ st ∈ gen.buildLalrStates, st.id = 0 →
      Symbol.nonterminal "A" ∉ st.transitionSymbols gen.grammar.symbolTable gen.grammar.productions)
    = true)
  simp only [hgen, Option.all_some, decide_eq_true_eq] at hstates
  obtain ⟨htrans, hlalr⟩ := hstates
  obtain ⟨T, hT⟩ := generateTable_of_create hgen rfl addr
  refine ⟨by decide, gen, T, hgen, hT, htrans, ?_⟩
  rw [generateTable_getGoto hT, if_neg]
  rintro ⟨⟨st, hst, h0, hA⟩, -⟩
  exact hlalr st hst h0 hA

end Lalr1
