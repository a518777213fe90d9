import Mathlib.Data.String.Basic
import Lalr1.Table

/-!
# Augmentation and the grammars the API builds

`Grammar::augment` looks the new start symbol up with `get_nonterminal(S.name + "'")`. When the
grammar already has a nonterminal of that name, `augment` reuses it: the "new" start symbol is
then the left-hand side of other productions and may occur in right-hand sides.

`Grammar.Built` describes the grammars a program reaches through the API from `Grammar()`; the
theorems about tables and parses range over them. Their productions use symbols of their own
table, and once augmented their production 0 is `S' → [S]` with `S'` named `S.name + "'"`.
-/

namespace Lalr1

namespace Grammar

variable {g : Grammar} {s : Symbol}

/-- The nonterminal `augment` takes as `S'` for the start symbol `s`. -/
def augmentedStart (g : Grammar) (s : Symbol) : Symbol :=
  (g.symbolTable.getNonterminal (s.name ++ "'")).1

theorem augment_of_isAugmented (h : g.isAugmented = true) : g.augment = g := by
  simp [augment, h]

theorem augment_of_startSymbol_eq_none (h : g.startSymbol = none) : g.augment = g := by
  unfold augment
  split <;> simp [h]

@[simp] theorem augment_isAugmented_iff :
    g.augment.isAugmented = true ↔ g.isAugmented = true ∨ g.startSymbol.isSome := by
  unfold augment
  split
  · simp_all
  · split <;> simp_all [clearCache]

theorem augment_productions (h : g.isAugmented = false) (hs : g.startSymbol = some s) :
    g.augment.productions = ⟨g.augmentedStart s, [s]⟩ :: g.productions := by
  simp [augment, h, hs, addProduction, clearCache, augmentedStart]

theorem augment_startSymbol (h : g.isAugmented = false) (hs : g.startSymbol = some s) :
    g.augment.startSymbol = some (g.augmentedStart s) := by
  simp [augment, h, hs, clearCache, addProduction, augmentedStart]

theorem augment_symbolTable (h : g.isAugmented = false) (hs : g.startSymbol = some s) :
    g.augment.symbolTable = (g.symbolTable.getNonterminal (s.name ++ "'")).2 := by
  simp [augment, h, hs, clearCache, addProduction]

/-- Production 0 of a grammar augmented by `augment` rewrites the new start symbol. -/
theorem augment_startSymbol_eq_lhs (h : g.isAugmented = false) (hs : g.startSymbol.isSome = true) :
    ∀ p, g.augment.productions[0]? = some p → g.augment.startSymbol = some p.lhs := by
  obtain ⟨s, hs⟩ := Option.isSome_iff_exists.mp hs
  intro p hp
  rw [augment_productions h hs, List.getElem?_cons_zero, Option.some.injEq] at hp
  subst hp
  exact augment_startSymbol h hs

/-- A second `augment` changes nothing. -/
theorem augment_augment (g : Grammar) : g.augment.augment = g.augment := by
  by_cases h : g.isAugmented = true
  · simp [augment_of_isAugmented h]
  · cases hs : g.startSymbol with
    | none => simp [augment_of_startSymbol_eq_none hs]
    | some s =>
      exact augment_of_isAugmented (augment_isAugmented_iff.mpr (Or.inr (by simp [hs])))

end Grammar

namespace SymbolTable

theorem getNonterminal_isNonterminal (t : SymbolTable) (name : String) :
    (t.getNonterminal name).1.isNonterminal = true := by
  unfold getNonterminal
  split
  · rename_i h
    have := List.find?_some h
    simp_all
  · rfl

theorem getNonterminal_name (t : SymbolTable) (name : String) :
    (t.getNonterminal name).1.name = name := by
  unfold getNonterminal
  split
  · rename_i h
    have := List.find?_some h
    simp_all
  · rfl

/-- Without a nonterminal of that name, `get_nonterminal` creates one outside the table. -/
theorem getNonterminal_fresh (t : SymbolTable) (name : String)
    (h : ∀ x ∈ t.symbols, x.isNonterminal = true → x.name ≠ name) :
    (t.getNonterminal name).1 = Symbol.nonterminal name ∧
      (t.getNonterminal name).1 ∉ t.symbols := by
  have hnone : t.symbols.find? (fun s => s.name == name && s.isNonterminal) = none := by
    rw [List.find?_eq_none]
    intro x hx
    have := h x hx
    cases hn : x.isNonterminal <;> simp_all
  simp only [getNonterminal, hnone, true_and]
  intro hmem
  exact h _ hmem rfl rfl

end SymbolTable

/-- The last character of `S.name + "'"` is an apostrophe. -/
theorem back_append_apostrophe (name : String) : (name ++ "'").back = '\x27' := by
  rw [String.back_eq]
  show (name.data ++ ['\x27']).getLastD default = '\x27'
  simp

/-- `E → E'`, `E' → x` with start symbol `E`: a grammar that already has the name `augment`
will pick. -/
def clashGrammar : Grammar :=
  let (e, g) := Grammar.new.getNonterminal "E"
  let (e', g) := g.getNonterminal "E'"
  let (x, g) := g.getTerminal "x" .identifier
  ((g.addProduction e [e']).addProduction e' [x]).setStartSymbol e

/-- On `clashGrammar`, production 0 after `augment` is `E' → [E]` for the `E'` already in the
table, which is also the left-hand side of `E' → x` and occurs in `E → E'`. -/
theorem augment_reuses_existing_nonterminal :
    clashGrammar.augment.productions =
        [⟨.nonterminal "E'", [.nonterminal "E"]⟩, ⟨.nonterminal "E", [.nonterminal "E'"]⟩,
          ⟨.nonterminal "E'", [.terminal "x" .identifier]⟩] ∧
      Symbol.nonterminal "E'" ∈ clashGrammar.symbolTable.symbols := by
  decide

/-! ## Grammars built through the API -/

/-- The grammars a program reaches from `Grammar()` through the API. Productions and the start
symbol use symbols of the grammar's own table (the only ones the value model identifies with
the source's pointers). The memo tables may hold anything: the generator reads none of them.
The table's iteration order is pointer order, which the allocator decides, so any reordering
of a reachable table is reachable. -/
inductive Grammar.Built : Grammar → Prop
  | new : Built Grammar.new
  | getTerminal {g : Grammar} (name : String) (tt : TokenType) :
      Built g → Built (g.getTerminal name tt).2
  | getNonterminal {g : Grammar} (name : String) : Built g → Built (g.getNonterminal name).2
  | addProduction {g : Grammar} {lhs : Symbol} {rhs : List Symbol} :
      Built g → lhs ∈ g.symbolTable.symbols → (∀ x ∈ rhs, x ∈ g.symbolTable.symbols) →
      Built (g.addProduction lhs rhs)
  | setStartSymbol {g : Grammar} {s : Symbol} :
      Built g → s ∈ g.symbolTable.symbols → Built (g.setStartSymbol s)
  | augment {g : Grammar} : Built g → Built g.augment
  | memo {g g' : Grammar} : Built g → g'.symbolTable = g.symbolTable →
      g'.productions = g.productions → g'.startSymbol = g.startSymbol →
      g'.isAugmented = g.isAugmented → Built g'
  | reorder {g : Grammar} {l : List Symbol} :
      Built g → l.Perm g.symbolTable.symbols → Built { g with symbolTable := ⟨l⟩ }

/-- What every built grammar satisfies. -/
structure Grammar.Wf (g : Grammar) : Prop where
  lhs_mem : ∀ p ∈ g.productions, p.lhs ∈ g.symbolTable.symbols
  rhs_mem : ∀ p ∈ g.productions, ∀ x ∈ p.rhs, x ∈ g.symbolTable.symbols
  start_mem : ∀ s, g.startSymbol = some s → s ∈ g.symbolTable.symbols
  augmented : g.isAugmented = true → ∃ a b rest, g.productions = ⟨a, [b]⟩ :: rest ∧
    a.isNonterminal = true ∧ a.name = b.name ++ "'" ∧ a ∈ g.symbolTable.symbols

namespace Grammar.Wf

variable {g : Grammar}

/-- Growing the table keeps `Wf`. -/
theorem mono_table (h : g.Wf) {t : SymbolTable} (ht : g.symbolTable.symbols ⊆ t.symbols) :
    Grammar.Wf { g with symbolTable := t } where
  lhs_mem p hp := ht (h.lhs_mem p hp)
  rhs_mem p hp x hx := ht (h.rhs_mem p hp x hx)
  start_mem s hs := ht (h.start_mem s hs)
  augmented ha := by
    obtain ⟨a, b, rest, h1, h2, h3, h4⟩ := h.augmented ha
    exact ⟨a, b, rest, h1, h2, h3, ht h4⟩

theorem augment (h : g.Wf) : g.augment.Wf := by
  cases ha : g.isAugmented
  · cases hs : g.startSymbol with
    | none => simpa [augment_of_startSymbol_eq_none hs] using h
    | some s =>
      have hsub := g.symbolTable.getNonterminal_subset (s.name ++ "'")
      have h' := h.mono_table hsub
      have hnew := g.symbolTable.getNonterminal_mem (s.name ++ "'")
      refine ⟨?_, ?_, ?_, ?_⟩
      · rw [augment_productions ha hs, augment_symbolTable ha hs]
        intro p hp
        rcases List.mem_cons.mp hp with rfl | hp
        · exact hnew
        · exact h'.lhs_mem p hp
      · rw [augment_productions ha hs, augment_symbolTable ha hs]
        intro p hp x hx
        rcases List.mem_cons.mp hp with rfl | hp
        · simp only [List.mem_singleton] at hx
          exact hx ▸ hsub (h.start_mem s hs)
        · exact h'.rhs_mem p hp x hx
      · rw [augment_startSymbol ha hs, augment_symbolTable ha hs]
        rintro _ ⟨⟩
        exact hnew
      · intro _
        refine ⟨g.augmentedStart s, s, g.productions, augment_productions ha hs,
          SymbolTable.getNonterminal_isNonterminal _ _, SymbolTable.getNonterminal_name _ _, ?_⟩
        rw [augment_symbolTable ha hs]
        exact hnew
  · simpa [augment_of_isAugmented ha] using h

end Grammar.Wf

theorem Grammar.Built.wf {g : Grammar} (h : g.Built) : g.Wf := by
  induction h with
  | new => exact ⟨by simp [Grammar.new], by simp [Grammar.new], by simp [Grammar.new],
      by simp [Grammar.new]⟩
  | getTerminal name tt _ ih => exact ih.mono_table (SymbolTable.getTerminal_subset _ _ _)
  | getNonterminal name _ ih => exact ih.mono_table (SymbolTable.getNonterminal_subset _ _)
  | @addProduction g lhs rhs _ hl hr ih =>
    refine ⟨?_, ?_, ih.start_mem, ?_⟩
    · simp only [Grammar.addProduction, Grammar.clearCache, List.mem_append, List.mem_singleton]
      rintro p (hp | rfl)
      · exact ih.lhs_mem p hp
      · exact hl
    · simp only [Grammar.addProduction, Grammar.clearCache, List.mem_append, List.mem_singleton]
      rintro p (hp | rfl)
      · exact ih.rhs_mem p hp
      · exact hr
    · intro ha
      obtain ⟨a, b, rest, h1, h2, h3, h4⟩ := ih.augmented ha
      exact ⟨a, b, rest ++ [⟨lhs, rhs⟩], by simp [Grammar.addProduction, Grammar.clearCache, h1], h2, h3, h4⟩
  | setStartSymbol _ hs ih =>
    exact ⟨ih.lhs_mem, ih.rhs_mem, by rintro _ ⟨⟩; exact hs, ih.augmented⟩
  | augment _ ih => exact ih.augment
  | memo _ ht hp hs ha ih =>
    refine ⟨?_, ?_, ?_, ?_⟩
    · rw [hp, ht]; exact ih.lhs_mem
    · rw [hp, ht]; exact ih.rhs_mem
    · rw [hs, ht]; exact ih.start_mem
    · rw [hp, ht, ha]; exact ih.augmented
  | reorder _ hl ih =>
    have hsub : ∀ x, x ∈ _ → x ∈ _ := fun x hx => hl.symm.subset hx
    exact ih.mono_table hsub

/-! ## Grammars with plain nonterminal names -/

/-- Every nonterminal of the table has a non-empty name that does not end in an apostrophe. -/
def SymbolTable.PlainNames (t : SymbolTable) : Prop :=
  ∀ x ∈ t.symbols, x.isNonterminal = true → x.name ≠ "" ∧ x.name.back ≠ '\x27'

instance : DecidablePred SymbolTable.PlainNames := fun t =>
  inferInstanceAs (Decidable (∀ x ∈ t.symbols, x.isNonterminal = true →
    x.name ≠ "" ∧ x.name.back ≠ '\x27'))

/-- What `augment` gives a grammar with start symbol `S` when the name `S.name + "'"` is new:
production 0 is `S' → [S]` for a nonterminal `S'` that occurs in no right-hand side and passes
the accept test, and no other production of a nonterminal passes it. -/
structure Grammar.AugmentedShape (g : Grammar) (S : Symbol) : Prop where
  isAugmented : g.isAugmented = true
  zero : g.productions[0]? = some ⟨.nonterminal (S.name ++ "'"), [S]⟩
  start_fresh : ∀ p ∈ g.productions, Symbol.nonterminal (S.name ++ "'") ∉ p.rhs
  looksAugmented_of_pos : ∀ i q, 0 < i → g.productions[i]? = some q →
    q.lhs.isNonterminal = true → q.looksAugmented = false

namespace Grammar

variable {g : Grammar} {S : Symbol}

theorem Wf.isAugmented_eq_false (h : g.Wf) (hn : g.symbolTable.PlainNames) :
    g.isAugmented = false := by
  cases ha : g.isAugmented
  · rfl
  · obtain ⟨a, b, -, -, hnt, hname, hmem⟩ := h.augmented ha
    exact absurd (hname ▸ back_append_apostrophe b.name) (hn a hmem hnt).2

/-- With plain names, `augment` takes `S'` new: the nonterminal named `S.name + "'"`. -/
theorem augmentedStart_fresh (hn : g.symbolTable.PlainNames) (S : Symbol) :
    g.augmentedStart S = .nonterminal (S.name ++ "'") ∧ g.augmentedStart S ∉ g.symbolTable.symbols :=
  g.symbolTable.getNonterminal_fresh _ fun x hx hnt heq =>
    (hn x hx hnt).2 (heq ▸ back_append_apostrophe S.name)

theorem Wf.augmentedShape (h : g.Wf) (hn : g.symbolTable.PlainNames) (hS : g.startSymbol = some S) :
    g.augment.AugmentedShape S := by
  have ha := h.isAugmented_eq_false hn
  obtain ⟨heq, hnot⟩ := augmentedStart_fresh hn S
  have hprods := augment_productions ha hS
  rw [heq] at hprods hnot
  refine ⟨augment_isAugmented_iff.mpr (.inr (by simp [hS])), by simp [hprods], ?_, ?_⟩
  · rw [hprods]
    intro p hp hmem
    rcases List.mem_cons.mp hp with rfl | hp
    · rw [List.mem_singleton.mp hmem] at hnot
      exact hnot (h.start_mem S hS)
    · exact hnot (h.rhs_mem p hp _ hmem)
  · intro i q hi hq hnt
    obtain ⟨i, rfl⟩ : ∃ i', i = i' + 1 := ⟨i - 1, by omega⟩
    rw [hprods, List.getElem?_cons_succ] at hq
    have hq := List.getElem?_mem hq
    simp [Production.looksAugmented, (hn _ (h.lhs_mem q hq) hnt).2]

end Grammar

end Lalr1
