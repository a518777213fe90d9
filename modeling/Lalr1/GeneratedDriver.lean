import Lalr1.Codegen
import Lalr1.Driver

/-!
# The loop of the generated parser

`CppCodeGenerator::write_parsing_methods` (`cpp_codegen.cpp`) writes the methods of the generated
parser class that run its tables: `parse`, `shift`, `reduce`, `create_production_node`,
`get_current_token_type`, `get_action`, `get_goto` and `error`; `write_token_definitions` writes its
`Token` and `token_type_to_string`. They are modelled here as functions of what the generator
writes (`GeneratedParser`), with the `while (true)` loop of `parse` run with fuel (`Generated.parse`).
A token of the generated parser carries the label of its `TokenType`; a node is a `TerminalNode` or
the node class of a rule. Verbose printing is left out.

The generated loop is the loop of `parse_internal` on the encoded tables: one iteration of either
matches one iteration of the other. For a grammar whose tables the generated parser reads back
(terminals with distinct token names, none `EOF_TOKEN`, none named `$`) and whose
`create_production_node` has a case for every production, given the tokens of the library's lexer
translated to the generated `TokenType` (`translateToken`), the two loops keep the same states on
their stacks and nodes of the same shape (`Sim`, `step_sim`, `loop_sim`). So the generated parser
returns a tree exactly when `parse_internal` succeeds, of the same shape as its parse tree, and a
null node with an error logged exactly when it fails (`generated_parser_agrees`). The node classes
are those of the previous production (`generated_reduce_builds_wrong_class`), which the shape does
not see.
-/

namespace Lalr1

namespace Generated

open CppCodeGenerator

/-! ## The generated code -/

/-- The generated `struct Token`: the label of its `TokenType`, the text and the coordinates. -/
structure Token where
  type : String
  text : String
  line : Nat
  column : Nat
  deriving DecidableEq, Repr

/-- The generated node classes: a `TerminalNode` holding its token, or the node class of a rule
with the children `add_child` kept. -/
inductive AstNode
  | terminal (token : Token)
  | rule (className : String) (children : List AstNode)
  deriving Repr

/-- The generated `struct ParseState`: a state and its node, `none` for `nullptr`. -/
structure ParseState where
  state : Nat
  node : Option AstNode
  deriving Repr

/-- The members of the parser object that `parse` changes: `state_stack_` (top first),
`current_token_` and `errors_`. -/
structure ParserState where
  stateStack : List ParseState
  currentToken : Nat
  errors : List String
  deriving Repr

/-- The cases of the generated `token_type_to_string`: the label and the name of each terminal
other than `$`, in `get_all_symbols()` order. -/
def tokenTypeNames (t : SymbolTable) : List (String × String) :=
  (t.symbols.filter fun s => s.isTerminal && s.name != "$").map fun s => (toTokenName s.name, s.name)

/-- The generated `token_type_to_string`; a `switch` reads its first matching case. -/
def tokenTypeToString (names : List (String × String)) (type : String) : String :=
  if type = "EOF_TOKEN" then "EOF" else (names.lookup type).getD "UNKNOWN"

/-- What one iteration of the loop does: continue, or return a node. -/
inductive StepResult
  | next (st : ParserState)
  | done (node : Option AstNode) (st : ParserState)

section Code

variable (P : GeneratedParser) (names : List (String × String)) (tokens : List Token)

/-- The generated `get_current_token_type`: `EOF_TOKEN` past the last token. -/
def getCurrentTokenType (current : Nat) : String := (tokens[current]?.map (·.type)).getD "EOF_TOKEN"

/-- The generated `error`: log the message, with the current token's line and column when there is
a current token. -/
def error (st : ParserState) (message : String) : ParserState :=
  let place := match tokens[st.currentToken]? with
    | some t => " at line " ++ Nat.repr t.line ++ ", column " ++ Nat.repr t.column
    | none => ""
  { st with errors := st.errors ++ ["Parse error" ++ place ++ ": " ++ message] }

/-- The generated `shift`: push the state with a terminal node for the current token and move past
it; past the last token it does nothing. -/
def shift (st : ParserState) (state : Nat) : ParserState :=
  match tokens[st.currentToken]? with
  | some tok =>
    { st with stateStack := ⟨state, some (.terminal tok)⟩ :: st.stateStack
              currentToken := st.currentToken + 1 }
  | none => st

/-- The generated `get_goto`: the entry of `GOTO_TABLE`, −1 past its rows (`none` for a column past
the row, which the source reads out of bounds). -/
def getGoto (state nonTerminal : Nat) : Option Int :=
  if state < P.numStates then (P.gotoTable[state]?).bind (·[nonTerminal]?) else some (-1)

/-- The generated `reduce` with the `create_production_node` it calls: pop `PRODUCTION_LENGTH[p]`
states (as many as there are), build the node of case `p` from the popped nodes (`nullptr` and an
error for the default case), and push the goto entry of the state below on column
`PRODUCTION_LHS[p]`; when the entry is −1, log an error and push nothing. `none` when `p` is past
`PRODUCTION_LHS` or `PRODUCTION_LENGTH`. -/
def reduce (st : ParserState) (productionId : Nat) : Option ParserState :=
  match P.productionLhs[productionId]?, P.productionLength[productionId]? with
  | some lhs, some length =>
    let children := (st.stateStack.take length).reverse.map (·.node)
    let rest := st.stateStack.drop length
    let (node, st₁) : Option AstNode × ParserState :=
      match P.createProductionNode productionId with
      | some cls => (some (.rule cls (children.filterMap id)), st)
      | none => (none, error tokens st ("Unknown production ID: " ++ Nat.repr productionId))
    let currentState := (rest.head?.map (·.state)).getD 0
    (getGoto P currentState lhs).map fun gotoState =>
      if 0 ≤ gotoState then { st₁ with stateStack := ⟨gotoState.toNat, node⟩ :: rest }
      else { error tokens st₁ "Invalid goto state" with stateStack := rest }
  | _, _ => none

/-- One iteration of the `while (true)` loop of the generated `parse`: `none` on an empty state
stack (`top()` of an empty `std::stack`) or when `reduce` reads past its arrays. The action is read
as `decodeAction` reads it. -/
def step (st : ParserState) : Option StepResult :=
  match st.stateStack with
  | [] => none
  | top :: _ =>
    let currentToken := getCurrentTokenType tokens st.currentToken
    match decodeAction (P.getAction top.state currentToken) with
    | .shift s => some (.next (shift tokens st s))
    | .reduce p => (reduce P tokens st p).map .next
    | .accept =>
      if 2 ≤ st.stateStack.length then some (.done top.node st)
      else some (.done none (error tokens st "Parse completed but no result available"))
    | .error =>
      some (.done none (error tokens st ("Unexpected token: " ++ tokenTypeToString names currentToken)))

/-- The loop, with at most `fuel` iterations: the node returned and `get_errors()` after it. -/
def loop : Nat → ParserState → Option (Option AstNode × List String)
  | 0, _ => none
  | n + 1, st =>
    match step P names tokens st with
    | some (.next st') => loop n st'
    | some (.done node st') => some (node, st'.errors)
    | none => none

/-- The generated `parse(tokens)` with at most `fuel` iterations of its loop: the state stack holds
state 0 with no node, before the first token, with no error. -/
def parse (fuel : Nat) : Option (Option AstNode × List String) :=
  loop P names tokens fuel ⟨[⟨0, none⟩], 0, []⟩

/-- `reduce` when the arrays have entry `p`, case `p` exists and the goto entry is a state: the
node of the case's class is pushed with that state. -/
theorem reduce_of_goto {st : ParserState} {p lhs length s : Nat} {cls : String}
    (hlhs : P.productionLhs[p]? = some lhs) (hlen : P.productionLength[p]? = some length)
    (hcls : P.createProductionNode p = some cls)
    (hgoto : getGoto P (((st.stateStack.drop length).head?.map (·.state)).getD 0) lhs = some (s : Int)) :
    reduce P tokens st p = some { st with
      stateStack := ⟨s, some (.rule cls (((st.stateStack.take length).reverse.map (·.node)).filterMap id))⟩ ::
        st.stateStack.drop length } := by
  simp only [reduce, hlhs, hlen, hcls, hgoto, Option.map_some', Int.natCast_nonneg, if_true,
    Int.toNat_ofNat]

end Code

/-! ## The generated parser beside `parse_internal` -/

/-- The label the generated `TokenType` gives a terminal: `EOF_TOKEN` for `$`. -/
def tokenLabel (a : Symbol) : String := if a.isEndOfInput then "EOF_TOKEN" else toTokenName a.name

/-- The generated lexer's token for a token of the library's lexer: the label of the terminal
`parse_internal` finds for it, with the same text and coordinates (`none` for a token without a
terminal, which no generated `TokenType` stands for). -/
def translateToken (g : Grammar) (tok : Lalr1.Token) : Option Token :=
  (LALR1Parser.terminalFor g tok).map fun a => ⟨tokenLabel a, tok.value, tok.line, tok.column⟩

/-- A parse tree and a generated node of the same shape: a terminal leaf with the token's text, or
a node of a nonterminal whose children have the shapes of the node's children. The node class is
not compared. -/
inductive SameShape : ParseNode → AstNode → Prop
  | leaf {a : Symbol} {v : String} {tok : Token} : a.isNonterminal = false → tok.text = v →
      SameShape (.mk a v []) (.terminal tok)
  | node {X : Symbol} {cs : List ParseNode} {cls : String} {ds : List AstNode} :
      X.isNonterminal = true → List.Forall₂ SameShape cs ds → SameShape (.mk X "" cs) (.rule cls ds)

/-- A frame of `parse_internal` and one of the generated parser: the same state, nodes of the same
shape. -/
def FrameSim (e : StackElement) (f : ParseState) : Prop :=
  e.state = f.state ∧ Option.Rel SameShape e.node f.node

/-- A configuration of `parse_internal` reading `ts` and a state of the generated `parse` in step:
the stacks frame by frame, the same position in the tokens, no error logged. -/
structure Sim (ts : TokenStream) (c : Config) (st : ParserState) : Prop where
  stack : List.Forall₂ FrameSim c.stack st.stateStack
  token : c.token = (ts.drop st.currentToken).next.1
  lexer : c.lexer = (ts.drop st.currentToken).next.2
  errors : st.errors = []

/-- What the two parsers return, side by side: a success and a node of the same shape with no
error logged, or a failure and a null node with an error logged. -/
def ResultSim : ParseResult → Option AstNode × List String → Prop
  | .success node, (node', errors) => Option.Rel SameShape node node' ∧ errors = []
  | .failure _ _ _, (node', errors) => node' = none ∧ errors ≠ []

/-- One iteration of each loop, side by side: both continue in step, or both return alike. -/
def StepSim (ts : TokenStream) : Lalr1.StepResult → StepResult → Prop
  | .next c, .next st => Sim ts c st
  | .done r, .done node st => ResultSim r (node, st.errors)
  | _, _ => False

/-! ### Tokens -/

theorem TokenStream.next_fst (ts : TokenStream) : ts.next.1 = ts.pending.head?.getD ts.eof := by
  rcases ts with ⟨_ | _, _⟩ <;> rfl

theorem TokenStream.drop_eq : ∀ (k : Nat) (ts : TokenStream), ts.drop k = ⟨ts.pending.drop k, ts.eof⟩
  | 0, ⟨_, _⟩ => rfl
  | k + 1, ⟨[], e⟩ => by rw [TokenStream.drop, TokenStream.drop_eq k]; simp [TokenStream.next]
  | k + 1, ⟨_ :: rest, e⟩ => by rw [TokenStream.drop, TokenStream.drop_eq k]; rfl

/-- The token a stream returns after `k` tokens: its `k`-th pending token, or its EOF token. -/
theorem TokenStream.drop_next_fst (k : Nat) (ts : TokenStream) :
    (ts.drop k).next.1 = ts.pending[k]?.getD ts.eof := by
  rw [TokenStream.drop_eq, TokenStream.next_fst, List.head?_drop]

theorem terminalFor_mem_or {g : Grammar} {tok : Lalr1.Token} {a : Symbol}
    (h : LALR1Parser.terminalFor g tok = some a) :
    a ∈ g.symbolTable.getTerminals ∨ a = endOfInputSymbol := by
  unfold LALR1Parser.terminalFor at h
  split at h
  · exact .inr (Option.some.inj h).symm
  · exact .inl (List.mem_of_find?_eq_some h)

theorem tokenLabel_of_mem {t : SymbolTable} {a : Symbol} (ha : a ∈ t.getTerminals) :
    tokenLabel a = toTokenName a.name := by
  have : a.type = .terminal := by simpa using (List.mem_filter.mp ha).2
  simp [tokenLabel, Symbol.isEndOfInput, this]

theorem getElem?_rel {α β : Type} {R : α → β → Prop} :
    ∀ {l₁ : List α} {l₂ : List β}, List.Forall₂ R l₁ l₂ → ∀ k : Nat, Option.Rel R l₁[k]? l₂[k]?
  | _, _, .nil, _ => .none
  | _, _, .cons h _, 0 => by simpa only [List.getElem?_cons_zero] using .some h
  | _, _, .cons _ t, k + 1 => by simpa only [List.getElem?_cons_succ] using getElem?_rel t k

section Tokens

variable {g : Grammar} {ts : TokenStream} {tokens : List Token}
  (htoks : List.Forall₂ (fun tok gt => translateToken g tok = some gt) ts.pending tokens)
  (hend : ts.eof.isEof = true)
include htoks hend

/-- The token `parse_internal` reads after `k` shifts has a terminal; the generated parser's
current token carries its label, and, unless it is `$`, is its translation. -/
theorem translate_current (k : Nat) :
    ∃ a, LALR1Parser.terminalFor g (ts.drop k).next.1 = some a ∧
      getCurrentTokenType tokens k = tokenLabel a ∧
      (a.isEndOfInput = false → tokens[k]? = some ⟨tokenLabel a, (ts.drop k).next.1.value,
        (ts.drop k).next.1.line, (ts.drop k).next.1.column⟩) := by
  have hrel := getElem?_rel htoks k
  rw [TokenStream.drop_next_fst]
  cases hk : ts.pending[k]? with
  | none =>
    rw [hk] at hrel
    cases hg : tokens[k]? with
    | some _ => rw [hg] at hrel; cases hrel
    | none =>
      refine ⟨endOfInputSymbol, by simp [LALR1Parser.terminalFor, hend], ?_,
        fun h => absurd h (by decide)⟩
      simp [getCurrentTokenType, hg, tokenLabel, endOfInputSymbol, Symbol.isEndOfInput]
  | some tok =>
    rw [hk] at hrel
    cases hg : tokens[k]? with
    | none => rw [hg] at hrel; cases hrel
    | some gt =>
      rw [hg] at hrel
      cases hrel with
      | some htr =>
        obtain ⟨a, ha, rfl⟩ := Option.map_eq_some'.mp htr
        exact ⟨a, ha, by simp [getCurrentTokenType, hg], fun _ => rfl⟩

end Tokens

/-! ### Actions -/

section Actions

variable {t : SymbolTable} (hnames : (t.getTerminals.map (toTokenName ·.name)).Nodup)
  (hdollar : ∀ a ∈ t.getTerminals, a.name ≠ "$")
  (heof : ∀ a ∈ t.getTerminals, toTokenName a.name ≠ "EOF_TOKEN")
include hnames hdollar heof

/-- In the generated `token_to_index`, the label of a terminal returns its column of
`ACTION_TABLE`, and `EOF_TOKEN` the column of `$`. -/
theorem tokenCases_lookup {a : Symbol} (ha : a ∈ t.getTerminals ∨ a = endOfInputSymbol) :
    ∃ i, (tokenCases t).lookup (tokenLabel a) = some i ∧
      ∃ hi : i < (actionColumns t).length, (actionColumns t)[i] = a := by
  have hts : tokenTerminals t = t.getTerminals :=
    List.filter_eq_self.mpr fun a ha => by simpa using hdollar a ha
  rcases ha with ha | rfl
  · obtain ⟨i, hi, rfl⟩ := List.mem_iff_getElem.mp ha
    have htok := lookup_enumFrom_getElem hnames [("EOF_TOKEN", t.getTerminals.length)] 0 i
      (by simpa using hi)
    refine ⟨i, ?_, by simp [actionColumns, hts]; omega, ?_⟩
    · simpa [tokenLabel_of_mem ha, tokenCases, hts, List.enum] using htok
    · simp only [actionColumns, hts]
      exact List.getElem_append_left hi
  · refine ⟨(tokenTerminals t).length, ?_, by simp [actionColumns], by simp [actionColumns]⟩
    rw [tokenCases, List.enum, lookup_enumFrom_of_not_mem]
    · simp [tokenLabel, endOfInputSymbol, Symbol.isEndOfInput]
    · simpa [hts, tokenLabel, endOfInputSymbol, Symbol.isEndOfInput] using heof

end Actions

section Generator

open LALR1Parser LALR1Generator

variable {gen : LALR1Generator} {addr : Nat → Nat} {T : ParseTable}
  (hT : gen.generateTable addr = .ok T)
  (hc : gen.lr0Automaton.Canonical gen.grammar.productions)
  (h0 : ∀ q, gen.grammar.productions[0]? = some q → q.looksAugmented = true)
  (hnames : (gen.grammar.symbolTable.getTerminals.map (toTokenName ·.name)).Nodup)
  (hdollar : ∀ a ∈ gen.grammar.symbolTable.getTerminals, a.name ≠ "$")
  (heof : ∀ a ∈ gen.grammar.symbolTable.getTerminals, toTokenName a.name ≠ "EOF_TOKEN")
include hT hc h0 hnames hdollar heof

/-- The generated `get_action`, read as the generated loop reads it, is the table's action in every
state, on the label of a terminal and on `EOF_TOKEN` for `$`. -/
theorem decodeAction_getAction (s : Nat) {a : Symbol}
    (ha : a ∈ gen.grammar.symbolTable.getTerminals ∨ a = endOfInputSymbol) :
    decodeAction ((generate gen.grammar T gen.buildLalrStates.length).getAction s (tokenLabel a)) =
      T.getAction s a := by
  have hlen : gen.buildLalrStates.length = gen.lr0Automaton.states.length := by
    simp [buildLalrStates]
  rw [hlen]
  by_cases hs : s < gen.lr0Automaton.states.length
  · obtain ⟨i, htok, hi, hcol⟩ := tokenCases_lookup hnames hdollar heof ha
    rw [getAction_generate _ _ _ hs htok hi, hcol]
    exact decodeAction_encodeAction (getAction_ne_zero hc h0 hT s a).1 (getAction_ne_zero hc h0 hT s a).2
  · rw [getAction_generate_of_le _ _ _ (Nat.not_lt.mp hs), getAction_of_le hT (Nat.not_lt.mp hs)]
    rfl

variable (hA : gen.lr0Automaton.Spec gen.grammar.symbolTable gen.grammar.productions)
  (hwf : gen.grammar.Wf)
  (hskip : ∀ p ∈ gen.grammar.productions,
    p.lhs.name ≠ (gen.grammar.startSymbol.map Symbol.name).getD "" ++ "'")
  {ts : TokenStream} {tokens : List Token}
  (htoks : List.Forall₂ (fun tok gt => translateToken gen.grammar tok = some gt) ts.pending tokens)
  (hend : ts.eof.isEof = true)
include hA hwf hskip htoks hend

/-- Step lemma: from a configuration of `parse_internal` whose stack is a path of the automaton and
a state of the generated parser in step with it, one iteration of each loop stays in step or
returns alike. -/
theorem step_sim {c : Config} {st : ParserState}
    (hpath : StackPath gen.lr0Automaton (FrameTree gen.grammar) c.stack) (hsim : Sim ts c st) :
    Option.Rel (StepSim ts) (parseStep gen.grammar T c)
      (step (generate gen.grammar T gen.buildLalrStates.length) (tokenTypeNames gen.grammar.symbolTable)
        tokens st) := by
  obtain ⟨stack, tok, lex⟩ := c
  obtain ⟨top, rest, rfl⟩ := List.exists_cons_of_ne_nil hpath.ne_nil
  obtain ⟨fstack, cur, errs⟩ := st
  obtain ⟨ftop, frest, ⟨hstate, hnode⟩, -, rfl⟩ := List.forall₂_cons_left_iff.mp hsim.stack
  have htoken : tok = (ts.drop cur).next.1 := hsim.token
  have hlex : lex = (ts.drop cur).next.2 := hsim.lexer
  obtain ⟨a, hterm, hlabel, htok⟩ := translate_current htoks hend cur
  rw [← htoken] at hterm htok
  have hdec : decodeAction ((generate gen.grammar T gen.buildLalrStates.length).getAction ftop.state
      (getCurrentTokenType tokens cur)) = T.getAction top.state a := by
    rw [hlabel, ← hstate]
    exact decodeAction_getAction hT hc h0 hnames hdollar heof _ (terminalFor_mem_or hterm)
  have hlen := hsim.stack.length_eq
  cases hact : T.getAction top.state a with
  | shift j =>
    obtain ⟨-, hat⟩ := shift_cell hT hact
    have ha : a.type = .terminal := by simpa using hat
    simp only [parseStep, hterm, hact, step, hdec, shift, htok (by simp [Symbol.isEndOfInput, ha])]
    refine .some ⟨.cons ⟨rfl, .some (.leaf (by simp [Symbol.isNonterminal, ha]) rfl)⟩ hsim.stack, ?_, ?_,
      hsim.errors⟩ <;>
    · dsimp only
      rw [hlex, ← TokenStream.drop_succ]
  | reduce i =>
    obtain ⟨p, below, s', hp, hi, hnt, hm, hdrop, hg, htr, -⟩ :=
      reduce_stackPath hT hA h0 hpath rfl hact
    obtain ⟨itemsB, target, hB, -, -⟩ := hA.sound _ _ _ htr
    have hbelow : below.state < gen.buildLalrStates.length := by
      simpa [buildLalrStates] using (List.getElem?_eq_some_iff.mp hB).1
    obtain ⟨hlength, k, hk, hgoto⟩ := reduce_tables gen.grammar T _ hbelow hp
      (List.mem_filter.mpr ⟨hwf.lhs_mem p (List.getElem?_mem hp), hnt⟩)
    obtain ⟨i', rfl⟩ := Nat.exists_eq_succ_of_ne_zero hi
    obtain ⟨q', hq'⟩ : ∃ q', gen.grammar.productions[i']? = some q' :=
      Option.isSome_iff_exists.mp (by
        have := (List.getElem?_eq_some_iff.mp hp).1
        simp only [List.getElem?_eq_getElem (Nat.lt_of_succ_lt this), Option.isSome_some])
    have hcls := createProductionNode_succ gen.grammar T gen.buildLalrStates.length hskip hq'
    have hdrop' := getElem?_rel (List.forall₂_drop p.rhs.length hsim.stack) 0
    rw [← List.head?_eq_getElem?, ← List.head?_eq_getElem?, hdrop] at hdrop'
    obtain ⟨fb, hfb, hbsim⟩ : ∃ fb, ((ftop :: frest).drop p.rhs.length).head? = some fb ∧
        FrameSim below fb := by
      generalize ((ftop :: frest).drop p.rhs.length).head? = o at hdrop'
      cases hdrop' with
      | some h => exact ⟨_, rfl, h⟩
    have hgoto' : getGoto (generate gen.grammar T gen.buildLalrStates.length)
        ((((ftop :: frest).drop p.rhs.length).head?.map (·.state)).getD 0) k = some (s' : Int) := by
      simp only [hfb, Option.map_some', Option.getD_some, ← hbsim.1, getGoto]
      rw [if_pos (show below.state < (generate gen.grammar T _).numStates from hbelow), hgoto, hg]
      rfl
    simp only [parseStep, hterm, hact, hp, Option.map_some', reduce_eq_next hm hdrop hg, step, hdec]
    rw [@reduce_of_goto _ _ ⟨ftop :: frest, cur, errs⟩ _ _ _ _ _ hk hlength hcls hgoto']
    refine .some ⟨.cons ⟨rfl, .some (.node hnt ?_)⟩ (List.forall₂_drop _ hsim.stack), hsim.token,
      hsim.lexer, hsim.errors⟩
    rw [List.filterMap_map]
    exact List.rel_filterMap (fun _ _ h => h.2)
      (List.forall₂_reverse_iff.mpr (List.forall₂_take _ hsim.stack))
  | accept =>
    by_cases h2 : 2 ≤ (top :: rest).length
    · simp only [parseStep, hterm, hact, step, hdec, ← hlen, if_pos h2]
      exact .some ⟨hnode, hsim.errors⟩
    · simp only [parseStep, hterm, hact, step, hdec, ← hlen, if_neg h2]
      exact .some ⟨rfl, by simp [error]⟩
  | error =>
    simp only [parseStep, hterm, hact, step, hdec]
    exact .some ⟨rfl, by simp [error]⟩

/-- Run lemma: from a configuration `parse_internal` reaches and a state of the generated parser in
step with it, the two loops return alike on the same fuel. -/
theorem loop_sim (fuel : Nat) : ∀ {c : Config} {st : ParserState},
    Relation.ReflTransGen (Step gen.grammar T) (initConfig ts) c → Sim ts c st →
      Option.Rel ResultSim (parseLoop gen.grammar T fuel c)
        (loop (generate gen.grammar T gen.buildLalrStates.length) (tokenTypeNames gen.grammar.symbolTable)
          tokens fuel st) := by
  induction fuel with
  | zero => exact fun _ _ => .none
  | succ n ih =>
    intro c st hreach hsim
    have hstep := step_sim hT hc h0 hnames hdollar heof hA hwf hskip htoks hend
      (stackPath_of_reach hT hA h0 hreach) hsim
    rw [parseLoop, loop]
    generalize hr : parseStep gen.grammar T c = o at hstep ⊢
    generalize step _ _ tokens st = o' at hstep ⊢
    cases hstep with
    | none => exact .none
    | some h =>
      rename_i r r'
      cases r <;> cases r' <;> simp only [StepSim] at h
      · exact ih (hreach.tail hr) h
      · exact .some h

end Generator

open LALR1Parser LALR1Generator in
/-- For a built grammar that `create` accepts, and a table `generate_table` returns for it, whose
terminals have distinct token names, none `EOF_TOKEN` and none named `$`, and none of whose rules is
for the start symbol followed by an apostrophe: on the tokens of the library's lexer, translated to
the generated `TokenType`, the generated parser and `parse_internal` return alike on the same fuel.
When one runs out of fuel so does the other; when `parse_internal` succeeds, the generated parser
returns a node of the same shape as its tree and logs no error; when it fails, the generated parser
returns a null node and logs an error. -/
theorem generated_parser_agrees {g : Grammar} (hb : g.Built) {gen : LALR1Generator}
    (hgen : create g = some gen) {addr : Nat → Nat} {T : ParseTable} (hT : gen.generateTable addr = .ok T)
    (hnames : (g.symbolTable.getTerminals.map (toTokenName ·.name)).Nodup)
    (hdollar : ∀ a ∈ g.symbolTable.getTerminals, a.name ≠ "$")
    (heof : ∀ a ∈ g.symbolTable.getTerminals, toTokenName a.name ≠ "EOF_TOKEN")
    (hskip : ∀ p ∈ g.productions, p.lhs.name ≠ (g.startSymbol.map Symbol.name).getD "" ++ "'")
    {ts : TokenStream} {tokens : List Token}
    (htoks : List.Forall₂ (fun tok gt => translateToken g tok = some gt) ts.pending tokens)
    (hend : ts.eof.isEof = true) (fuel : Nat) :
    Option.Rel ResultSim (parseInternal g T ts fuel)
      (Generated.parse (generate g T gen.buildLalrStates.length) (tokenTypeNames g.symbolTable) tokens
        fuel) := by
  obtain rfl := grammar_of_create hgen
  have hA := spec_of_create hgen
  have h0 := hb.wf.looksAugmented_zero (isAugmented_of_generateTable hT)
  exact loop_sim hT (canonical_of_create hgen) h0 hnames hdollar heof hA hb.wf hskip htoks hend fuel
    .refl ⟨.cons ⟨rfl, .none⟩ .nil, rfl, rfl, rfl⟩

open LALR1Parser LALR1Generator in
theorem generated_parser_agrees_expr :
    ∃ gen T, create exprGrammar.augment = some gen ∧ gen.generateTable id = .ok T ∧
      ∀ fuel, Option.Rel ResultSim
        (parseInternal exprGrammar.augment T ⟨[⟨.number, "1", 1, 1, 0⟩, ⟨.plus, "+", 1, 3, 2⟩,
          ⟨.number, "2", 1, 5, 4⟩], ⟨.eofToken, "", 1, 6, 5⟩⟩ fuel)
        (Generated.parse (generate exprGrammar.augment T gen.buildLalrStates.length)
          (tokenTypeNames exprGrammar.augment.symbolTable)
          [⟨"NUM", "1", 1, 1⟩, ⟨"PLUS", "+", 1, 3⟩, ⟨"NUM", "2", 1, 5⟩] fuel) := by
  obtain ⟨gen, hgen, hg, -, hshape⟩ := create_augment exprGrammar_built rfl (by decide)
  obtain ⟨T, hT⟩ := gen.generateTable_ok id (hg ▸ hshape.isAugmented)
  exact ⟨gen, T, hgen, hT, generated_parser_agrees (Grammar.Built.augment exprGrammar_built) hgen hT
    (by decide) (by decide) (by decide) (by decide) (by decide) rfl⟩

end Generated

end Lalr1
