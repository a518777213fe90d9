import Lalr1.Table

/-!
# The parser driver

`ParseNode`, `ParseResult` and `LALR1Parser::parse_internal` (`parser.h`, `parser.cpp`).

The token source is a finite list of tokens followed by the token the lexer returns once its
input is exhausted. The `while (true)` loop is `parseLoop` with fuel: `none` means that no
result was returned within the fuel, or that the source's behaviour is undefined (an empty
stack at the head of the loop, a reduction by a production index past the end).
-/

namespace Lalr1

/-- `class ParseNode`: symbol, lexeme and children. -/
inductive ParseNode
  | mk (symbol : Symbol) (value : String) (children : List ParseNode)
  deriving Repr

namespace ParseNode

def symbol : ParseNode → Symbol
  | mk s _ _ => s

def value : ParseNode → String
  | mk _ v _ => v

def children : ParseNode → List ParseNode
  | mk _ _ cs => cs

mutual

/-- Equality of parse trees, by recursion on both trees. -/
def decEq : (a b : ParseNode) → Decidable (a = b)
  | mk s v cs, mk s' v' cs' =>
    if hs : s = s' then
      if hv : v = v' then
        match decEqList cs cs' with
        | isTrue h => isTrue (by subst hs hv h; rfl)
        | isFalse h => isFalse fun e => h (by cases e; rfl)
      else isFalse fun e => hv (by cases e; rfl)
    else isFalse fun e => hs (by cases e; rfl)

/-- Equality of lists of parse trees. -/
def decEqList : (as bs : List ParseNode) → Decidable (as = bs)
  | [], [] => isTrue rfl
  | [], _ :: _ => isFalse fun e => by cases e
  | _ :: _, [] => isFalse fun e => by cases e
  | a :: as, b :: bs =>
    match decEq a b, decEqList as bs with
    | isTrue h, isTrue h' => isTrue (by subst h h'; rfl)
    | isFalse h, _ => isFalse fun e => h (by cases e; rfl)
    | _, isFalse h' => isFalse fun e => h' (by cases e; rfl)

end

instance : DecidableEq ParseNode := decEq

end ParseNode

/-- `struct ParseResult` with its two constructors. -/
inductive ParseResult
  | success (tree : Option ParseNode)
  | failure (errorMessage : String) (errorLine errorColumn : Nat)
  deriving DecidableEq, Repr

/-- `struct StackElement`. -/
structure StackElement where
  state : Nat
  symbol : Option Symbol
  node : Option ParseNode
  deriving Repr

/-- The lexer: tokens still to be read, and the token returned when they are exhausted. -/
structure TokenStream where
  pending : List Token
  eof : Token
  deriving Repr

/-- `lexer->next_token()`. -/
def TokenStream.next (ts : TokenStream) : Token × TokenStream :=
  match ts.pending with
  | [] => (ts.eof, ts)
  | t :: rest => (t, ⟨rest, ts.eof⟩)

/-- The first `n` tokens a token stream returns. -/
def TokenStream.take : Nat → TokenStream → List Token
  | 0, _ => []
  | n + 1, ts => ts.next.1 :: take n ts.next.2

/-- The stream after `n` tokens have been read from it. -/
def TokenStream.drop : Nat → TokenStream → TokenStream
  | 0, ts => ts
  | n + 1, ts => drop n ts.next.2

theorem TokenStream.drop_succ (n : Nat) (ts : TokenStream) : drop (n + 1) ts = (drop n ts).next.2 := by
  induction n generalizing ts with
  | zero => rfl
  | succ n ih => exact ih ts.next.2

theorem TokenStream.take_succ (n : Nat) (ts : TokenStream) :
    take (n + 1) ts = take n ts ++ [(drop n ts).next.1] := by
  induction n generalizing ts with
  | zero => rfl
  | succ n ih => simp only [take, drop, List.cons_append, ← ih]

/-- The driver's state at the head of its loop: the stack (top first), the current token and
the lexer. -/
structure Config where
  stack : List StackElement
  token : Token
  lexer : TokenStream
  deriving Repr

/-- What one iteration of the loop does: continue, or return. -/
inductive StepResult
  | next (c : Config)
  | done (r : ParseResult)
  deriving Repr

namespace LALR1Parser

variable (g : Grammar) (t : ParseTable)

/-- The terminal for the current token: `$` for an EOF token, otherwise the first terminal of
`get_terminals()` with the token's kind. -/
def terminalFor (tok : Token) : Option Symbol :=
  if tok.isEof then some endOfInputSymbol
  else g.symbolTable.getTerminals.find? (fun s => s.isTerminal && s.tokenType == tok.type)

/-- `LALR1Parser::get_expected_symbols`: the terminals and `$` with a non-error action, as a
`std::set`. -/
def getExpectedSymbols (state : Nat) : List Symbol :=
  orderBySymbolTable g.symbolTable
    (g.symbolTable.getTerminals.filter (fun s => !(t.getAction state s).isError) ++
      (if (t.getAction state endOfInputSymbol).isError then [] else [endOfInputSymbol]))

/-- The message of the `Error` branch. -/
def unexpectedTokenMessage (tok : Token) (expected : List Symbol) : String :=
  "Unexpected token '" ++ tok.value ++ "'" ++
    (if expected.isEmpty then "" else ". Expected: " ++ ", ".intercalate (expected.map (·.name)))

/-- The message of the missing goto entry. -/
def noGotoMessage (state : Nat) (lhs : Symbol) : String :=
  "No goto entry for state " ++ Nat.repr state ++ " and symbol " ++ lhs.name

/-- The reduce branch: pop `|rhs|` frames (an underflow when there are fewer), make the node of
the left-hand side from the popped nodes that are not null, look up the goto entry of the state
below and push it. -/
def reduce (c : Config) (p : Production) : StepResult :=
  if c.stack.length < p.rhs.length then
    .done (.failure "Stack underflow during reduction" c.token.line c.token.column)
  else
    let popped := c.stack.take p.rhs.length
    let rest := c.stack.drop p.rhs.length
    let node := ParseNode.mk p.lhs "" (popped.reverse.filterMap (·.node))
    let stateAfterPop := (rest.head?.map (·.state)).getD 0
    match t.getGoto stateAfterPop p.lhs with
    | none =>
      .done (.failure (noGotoMessage stateAfterPop p.lhs) c.token.line c.token.column)
    | some s => .next { c with stack := ⟨s, some p.lhs, some node⟩ :: rest }

/-- One iteration of the `while (true)` loop of `parse_internal`. -/
def parseStep (c : Config) : Option StepResult :=
  match c.stack with
  | [] => none
  | top :: _ =>
    match terminalFor g c.token with
    | none => some (.done (.failure ("Unknown token: " ++ c.token.value) c.token.line c.token.column))
    | some terminal =>
      match t.getAction top.state terminal with
      | .shift s =>
        let r := c.lexer.next
        some (.next ⟨⟨s, some terminal, some (.mk terminal c.token.value [])⟩ :: c.stack, r.1, r.2⟩)
      | .reduce i => (g.productions[i]?).map (reduce t c)
      | .accept =>
        if 2 ≤ c.stack.length then some (.done (.success top.node))
        else some (.done (.failure "Invalid stack state at accept" c.token.line c.token.column))
      | .error =>
        some (.done (.failure (unexpectedTokenMessage c.token (getExpectedSymbols g t top.state))
          c.token.line c.token.column))

/-- The loop, with at most `fuel` iterations. -/
def parseLoop : Nat → Config → Option ParseResult
  | 0, _ => none
  | n + 1, c =>
    match parseStep g t c with
    | some (.next c') => parseLoop n c'
    | some (.done r) => some r
    | none => none

/-- The configuration before the loop: the bottom frame `(0, null, null)` and the first token. -/
def initConfig (ts : TokenStream) : Config := ⟨[⟨0, none, none⟩], ts.next.1, ts.next.2⟩

/-- `LALR1Parser::parse_internal`, with at most `fuel` iterations of its loop. -/
def parseInternal (ts : TokenStream) (fuel : Nat) : Option ParseResult :=
  parseLoop g t fuel (initConfig ts)

end LALR1Parser

/-- `create_lalr1_parser`: augment a copy of the grammar, generate the table, and refuse a table
with conflicts (`none` when the automaton cannot be built: the source reads `productions()[0]`).
The parser it returns keeps the augmented grammar and the table. (The source's parser holds a
reference to the local copy, which is destroyed on return; the model keeps its value.) -/
def createLalr1Parser (g : Grammar) (addr : Nat → Nat) :
    Option (Except String (Grammar × ParseTable)) :=
  (LALR1Generator.create g.augment).map fun gen =>
    match gen.generateTable addr with
    | .error e => .error e
    | .ok t => if t.hasConflicts then .error "Grammar has parsing conflicts" else .ok (g.augment, t)

end Lalr1
