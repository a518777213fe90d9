import Lalr1.Symbol

/-!
# Productions and grammars

`class Production` and `class Grammar` of `grammar.h`/`grammar.cpp`: the production list, the
start symbol, augmentation, and the memo tables of the set analyses with their `computed` flags.

A `ProductionPtr` is identified with its index in `productions()`: the source creates a new
object for every `add_production`, so two entries of the vector are never the same pointer.
-/

namespace Lalr1

/-- `class Production`: `lhs_ → rhs_`. -/
structure Production where
  lhs : Symbol
  rhs : List Symbol
  deriving DecidableEq, Repr

/-- `class Grammar`. The memo tables are `unordered_map`s read through `find` with `{}` (or
`false`) for a missing key, so they are total functions here. -/
structure Grammar where
  symbolTable : SymbolTable
  productions : List Production
  startSymbol : Option Symbol
  isAugmented : Bool
  firstSets : Symbol → List Symbol
  followSets : Symbol → List Symbol
  epsilonDerivers : Symbol → Bool
  firstSetsComputed : Bool
  followSetsComputed : Bool
  epsilonComputed : Bool

namespace Grammar

/-- `Grammar::Grammar()`. -/
def new : Grammar where
  symbolTable := SymbolTable.new
  productions := []
  startSymbol := none
  isAugmented := false
  firstSets := fun _ => []
  followSets := fun _ => []
  epsilonDerivers := fun _ => false
  firstSetsComputed := false
  followSetsComputed := false
  epsilonComputed := false

/-- `Grammar::clear_cache`. -/
def clearCache (g : Grammar) : Grammar :=
  { g with
    firstSets := fun _ => []
    followSets := fun _ => []
    epsilonDerivers := fun _ => false
    firstSetsComputed := false
    followSetsComputed := false
    epsilonComputed := false }

/-- `Grammar::add_production(lhs, rhs)` (the one-argument overload is `rhs = []`). The source
also returns the new `ProductionPtr`; its index is the old length of `productions`. -/
def addProduction (g : Grammar) (lhs : Symbol) (rhs : List Symbol) : Grammar :=
  Grammar.clearCache { g with productions := g.productions ++ [Production.mk lhs rhs] }

/-- `Grammar::set_start_symbol`. -/
def setStartSymbol (g : Grammar) (s : Symbol) : Grammar := { g with startSymbol := some s }

/-- `symbol_table().get_terminal(name, tt)` on the grammar's own table. -/
def getTerminal (g : Grammar) (name : String) (tt : TokenType) : Symbol × Grammar :=
  let r := g.symbolTable.getTerminal name tt
  (r.1, { g with symbolTable := r.2 })

/-- `symbol_table().get_nonterminal(name)` on the grammar's own table. -/
def getNonterminal (g : Grammar) (name : String) : Symbol × Grammar :=
  let r := g.symbolTable.getNonterminal name
  (r.1, { g with symbolTable := r.2 })

/-- `Grammar::augment`. `S'` is looked up by name with `get_nonterminal`. The new production is
appended by `add_production`, erased by pointer (so the last entry) and reinserted at the
front. -/
def augment (g : Grammar) : Grammar :=
  if g.isAugmented then g else
  match g.startSymbol with
  | none => g
  | some s =>
    let r := g.symbolTable.getNonterminal (s.name ++ "'")
    let g₁ := addProduction { g with symbolTable := r.2 } r.1 [s]
    { g₁ with
      productions := ⟨r.1, [s]⟩ :: g₁.productions.dropLast
      startSymbol := some r.1
      isAugmented := true }.clearCache

/-- `Grammar::get_validation_errors`. The used nonterminals are a `std::set<SymbolPtr>`, walked
in pointer order. -/
def getValidationErrors (g : Grammar) : List String :=
  let defined := g.productions.map Production.lhs
  let used := g.productions.flatMap fun p => p.rhs.filter Symbol.isNonterminal
  (if g.startSymbol.isNone then ["No start symbol defined"] else []) ++
    (if g.productions.isEmpty then ["No productions defined"] else []) ++
    ((orderBySymbolTable g.symbolTable used).filter (· ∉ defined)).map
      fun s => "Undefined nonterminal: " ++ s.name

end Grammar

/-- The right-hand side of production `i` (empty past the end, where the source never reads:
items only name existing productions). -/
def rhsOf (prods : List Production) (i : Nat) : List Symbol :=
  (prods[i]?.map Production.rhs).getD []

/-- `Grammar::productions_for`: the indices of the productions with this left-hand side, in
order. -/
def productionsFor (prods : List Production) (x : Symbol) : List Nat :=
  (List.range prods.length).filter (fun i => (prods[i]?.map Production.lhs) == some x)

theorem mem_productionsFor {prods : List Production} {x : Symbol} {i : Nat} :
    i ∈ productionsFor prods x ↔ ∃ p, prods[i]? = some p ∧ p.lhs = x := by
  constructor
  · intro h
    simp only [productionsFor, List.mem_filter, List.mem_range, beq_iff_eq] at h
    obtain ⟨_, h⟩ := h
    cases hp : prods[i]? with
    | none => simp [hp] at h
    | some p => exact ⟨p, rfl, by simpa [hp] using h⟩
  · rintro ⟨p, hp, rfl⟩
    simp only [productionsFor, List.mem_filter, List.mem_range, hp, Option.map_some',
      beq_self_eq_true, and_true]
    exact (List.getElem?_eq_some_iff.mp hp).1

end Lalr1
