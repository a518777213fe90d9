import Mathlib.Data.List.Dedup

/-!
# Symbols, tokens and the symbol table

Token kinds and tokens (`token.h`), grammar symbols and the interning symbol table
(`symbol.h`, `symbol.cpp`).

The source compares `SymbolPtr`s. The symbol table hands out one object per
(name, type, token type), so for the symbols of one table pointer equality is equality of these
three fields, and symbols are compared by value here. A `std::set<SymbolPtr>` iterates in pointer
order, which the allocator decides; `SymbolTable.symbols` lists the table in that order, and every
other set of symbols is iterated in the order the table gives its members (`orderBySymbolTable`).
-/

namespace Lalr1

/-- `enum class TokenType` of `token.h`. -/
inductive TokenType
  | eofToken
  | errorToken
  | identifier
  | number
  | string
  | plus
  | minus
  | multiply
  | divide
  | power
  | assign
  | equal
  | notEqual
  | lessThan
  | greaterThan
  | lessEqual
  | greaterEqual
  | lparen
  | rparen
  | lbrace
  | rbrace
  | semicolon
  | comma
  | whitespace
  | newline
  | customStart
  deriving DecidableEq, Repr

/-- `struct Token`: kind, lexeme and source coordinates. -/
structure Token where
  type : TokenType
  value : String
  line : Nat
  column : Nat
  position : Nat
  deriving DecidableEq, Repr

/-- `Token::is_eof`. -/
def Token.isEof (t : Token) : Bool := t.type == .eofToken

/-- `enum class SymbolType`. -/
inductive SymbolType
  | terminal
  | nonterminal
  | epsilon
  | endOfInput
  deriving DecidableEq, Repr

/-- `class Symbol`. Nonterminals, ε and `$` carry the token type `EOF_TOKEN`
(the constructor `Symbol(name, SymbolType)`). -/
structure Symbol where
  name : String
  type : SymbolType
  tokenType : TokenType
  deriving DecidableEq, Repr

namespace Symbol

def isTerminal (s : Symbol) : Bool := s.type == .terminal

def isNonterminal (s : Symbol) : Bool := s.type == .nonterminal

def isEpsilon (s : Symbol) : Bool := s.type == .epsilon

def isEndOfInput (s : Symbol) : Bool := s.type == .endOfInput

/-- `Symbol(name, token_type)`, the terminal constructor. -/
def terminal (name : String) (tt : TokenType) : Symbol := ⟨name, .terminal, tt⟩

/-- `Symbol(name, SymbolType::NONTERMINAL)`. -/
def nonterminal (name : String) : Symbol := ⟨name, .nonterminal, .eofToken⟩

@[simp] theorem isTerminal_iff (s : Symbol) : s.isTerminal = true ↔ s.type = .terminal := by
  simp [isTerminal]

@[simp] theorem isNonterminal_iff (s : Symbol) :
    s.isNonterminal = true ↔ s.type = .nonterminal := by
  simp [isNonterminal]

@[simp] theorem isEpsilon_iff (s : Symbol) : s.isEpsilon = true ↔ s.type = .epsilon := by
  simp [isEpsilon]

@[simp] theorem isEndOfInput_iff (s : Symbol) :
    s.isEndOfInput = true ↔ s.type = .endOfInput := by
  simp [isEndOfInput]

end Symbol

/-- The table's `epsilon_`, created by the `SymbolTable` constructor. -/
def epsilonSymbol : Symbol := ⟨"ε", .epsilon, .eofToken⟩

/-- The table's `end_of_input_` (`$`). -/
def endOfInputSymbol : Symbol := ⟨"$", .endOfInput, .eofToken⟩

/-- `class SymbolTable`: `symbols_` in pointer order. The `epsilon_` and `end_of_input_`
members are the fixed values `epsilonSymbol` and `endOfInputSymbol`. -/
structure SymbolTable where
  symbols : List Symbol
  deriving DecidableEq, Repr

/-- The members of `xs`, iterated as a `std::set<SymbolPtr>` holding them: in the table's
pointer order, symbols unknown to the table last. -/
def orderBySymbolTable (t : SymbolTable) (xs : List Symbol) : List Symbol :=
  t.symbols.filter (· ∈ xs) ++ (xs.filter (· ∉ t.symbols)).dedup

@[simp] theorem mem_orderBySymbolTable {t : SymbolTable} {xs : List Symbol} {x : Symbol} :
    x ∈ orderBySymbolTable t xs ↔ x ∈ xs := by
  by_cases h : x ∈ t.symbols <;> simp [orderBySymbolTable, List.mem_dedup, h]

namespace SymbolTable

/-- The constructor: a table holding ε and `$`. -/
def new : SymbolTable := ⟨[epsilonSymbol, endOfInputSymbol]⟩

/-- `SymbolTable::get_terminal`: the interned terminal with this name and token type, or a new
one added to the table. -/
def getTerminal (t : SymbolTable) (name : String) (tt : TokenType) : Symbol × SymbolTable :=
  match t.symbols.find? (fun s => s.name == name && s.isTerminal && s.tokenType == tt) with
  | some s => (s, t)
  | none => (Symbol.terminal name tt, ⟨t.symbols ++ [Symbol.terminal name tt]⟩)

/-- `SymbolTable::get_nonterminal`: the nonterminal with this name, or a new one. -/
def getNonterminal (t : SymbolTable) (name : String) : Symbol × SymbolTable :=
  match t.symbols.find? (fun s => s.name == name && s.isNonterminal) with
  | some s => (s, t)
  | none => (Symbol.nonterminal name, ⟨t.symbols ++ [Symbol.nonterminal name]⟩)

/-- `SymbolTable::get_terminals`. -/
def getTerminals (t : SymbolTable) : List Symbol := t.symbols.filter Symbol.isTerminal

/-- `SymbolTable::get_nonterminals`. -/
def getNonterminals (t : SymbolTable) : List Symbol := t.symbols.filter Symbol.isNonterminal

/-- Interning only ever adds a symbol. -/
theorem getTerminal_subset (t : SymbolTable) (name : String) (tt : TokenType) :
    t.symbols ⊆ (t.getTerminal name tt).2.symbols := by
  unfold getTerminal
  split <;> simp

/-- Interning only ever adds a symbol. -/
theorem getNonterminal_subset (t : SymbolTable) (name : String) :
    t.symbols ⊆ (t.getNonterminal name).2.symbols := by
  unfold getNonterminal
  split <;> simp

theorem getTerminal_mem (t : SymbolTable) (name : String) (tt : TokenType) :
    (t.getTerminal name tt).1 ∈ (t.getTerminal name tt).2.symbols := by
  unfold getTerminal
  split
  · exact List.mem_of_find?_eq_some ‹_›
  · simp

theorem getNonterminal_mem (t : SymbolTable) (name : String) :
    (t.getNonterminal name).1 ∈ (t.getNonterminal name).2.symbols := by
  unfold getNonterminal
  split
  · exact List.mem_of_find?_eq_some ‹_›
  · simp

/-- Adding a nonterminal leaves the terminals of a table as they were. -/
@[simp] theorem getTerminals_getNonterminal (t : SymbolTable) (name : String) :
    (t.getNonterminal name).2.getTerminals = t.getTerminals := by
  unfold getNonterminal getTerminals
  split <;> simp [Symbol.nonterminal, Symbol.isTerminal]

end SymbolTable

end Lalr1
