import Lalr1.Canonical

/-!
# The generated C++ parser

`CppCodeGenerator` (`cpp_codegen.h`, `cpp_codegen.cpp`) writes a table-driven parser. A generated
parser is modelled by what the generator writes into it (`GeneratedParser`): the `case` labels of
`token_to_index`, `ACTION_TABLE`, `GOTO_TABLE`, `PRODUCTION_LHS`, `PRODUCTION_LENGTH` and the cases
of `create_production_node`; the generated methods are functions that read these. Names are read
as characters (the source transforms bytes, so a non-ASCII character gives one `_` here and one
per byte there). The generated code compiles only when the enumerators of its token enum are
distinct (`tokenEnumerators`); the case labels of `token_to_index` are then distinct too, and the
theorems about generated code assume it.

`write_action_table` writes `Shift(s)` as `s`, `Reduce(p)` as `-(p + 1)`, `Accept` as 0 and `Error`
as −1, and the generated loop reads `v > 0` as a shift, `v < −1` as a reduction and 0 as accept.
`Shift(0)` and `Reduce(0)` would be misread, but a generated table holds neither: no transition
enters state 0, and production 0 of an augmented grammar passes the accept test. So when the token
enum compiles and no terminal is named `$`, the generated `get_action` reads back the table's
action in every state, on every terminal and on `EOF_TOKEN` for `$` (`generated_action_round_trip`).

`create_production_node` numbers its cases from 1, while `reduce` passes the production's index.
Its test for the augmented production compares with the start symbol's name plus an apostrophe,
but the start symbol of the augmented grammar is `S'` already, so it skips nothing: case `i + 1`
builds the node class of production `i` (`createProductionNode_succ`), and a reduction by
production `p` builds the class of production `p − 1` (`generated_reduce_builds_wrong_class`).
-/

namespace Lalr1

namespace CppCodeGenerator

/-- The literal tokens `to_cpp_identifier` gives a name. -/
def specialNames : List (String × String) :=
  [("+", "PLUS"), ("-", "MINUS"), ("*", "MULTIPLY"), ("/", "DIVIDE"), ("(", "LPAREN"),
    (")", "RPAREN"), ("\x7b", "LBRACE"), ("\x7d", "RBRACE"), ("[", "LBRACKET"), ("]", "RBRACKET"),
    (";", "SEMICOLON"), (",", "COMMA"), (".", "DOT"), (":", "COLON"), ("=", "EQUALS"), ("<", "LT"),
    (">", "GT"), ("<=", "LE"), (">=", "GE"), ("==", "EQ"), ("!=", "NE"), ("&&", "AND"),
    ("||", "OR"), ("!", "NOT")]

/-- `CppCodeGenerator::to_cpp_identifier`: a literal's name, or the name with every character
other than a letter, digit or `_` replaced by `_`, and `_` put before a leading digit. -/
def toCppIdentifier (name : String) : String :=
  match specialNames.lookup name with
  | some s => s
  | none =>
    match name.toList.map fun c => if c.isAlphanum || c == '_' then c else '_' with
    | [] => ""
    | c :: cs => if c.isDigit then String.mk ('_' :: c :: cs) else String.mk (c :: cs)

/-- `CppCodeGenerator::to_token_name`: the identifier in upper case, with `NULL`, `TRUE` and
`FALSE` renamed. -/
def toTokenName (name : String) : String :=
  let r := String.mk ((toCppIdentifier name).toList.map Char.toUpper)
  if r = "NULL" then "NULL_TOKEN" else if r = "TRUE" then "TRUE_TOKEN"
  else if r = "FALSE" then "FALSE_TOKEN" else r

/-- `CppCodeGenerator::to_class_name`: the identifier with its first character in upper case. -/
def toClassName (name : String) : String :=
  match (toCppIdentifier name).toList with
  | [] => ""
  | c :: cs => String.mk (c.toUpper :: cs)

/-- `CppCodeGenerator::get_ast_node_name`. -/
def getAstNodeName (rule : String) : String := toClassName rule ++ "Node"

/-- The terminals of `token_to_index` and of the columns of `ACTION_TABLE`, in `get_terminals()`
order: those not named `$`. -/
def tokenTerminals (t : SymbolTable) : List Symbol := t.getTerminals.filter (·.name != "$")

/-- The enumerators of the generated `enum class TokenType` (`write_token_definitions`):
`EOF_TOKEN`, then the token names of `tokenTerminals`. An enum with a repeated enumerator does not
compile. -/
def tokenEnumerators (t : SymbolTable) : List String :=
  "EOF_TOKEN" :: (tokenTerminals t).map (toTokenName ·.name)

/-- The `case` labels of the generated `token_to_index`, each with the index it returns: the
token names of `tokenTerminals` from 0, then `EOF_TOKEN`. -/
def tokenCases (t : SymbolTable) : List (String × Nat) :=
  ((tokenTerminals t).map (toTokenName ·.name)).enum.map Prod.swap ++
    [("EOF_TOKEN", (tokenTerminals t).length)]

/-- The columns of `ACTION_TABLE`: `tokenTerminals`, then `$`. -/
def actionColumns (t : SymbolTable) : List Symbol := tokenTerminals t ++ [endOfInputSymbol]

/-- The comparison `write_goto_table` and `write_production_rules` sort nonterminals by: names
with an apostrophe first, then by name. -/
def ntBefore (a b : Symbol) : Bool :=
  let aa := a.name.toList.contains '\x27'
  let ba := b.name.toList.contains '\x27'
  (aa && !ba) || (aa == ba && decide (a.name < b.name))

/-- The nonterminals in the order of `GOTO_TABLE`'s columns. The names of the table's
nonterminals are distinct, so `std::sort` gives this order too. -/
def sortedNonterminals (t : SymbolTable) : List Symbol :=
  t.getNonterminals.insertionSort fun a b => ntBefore a b = true

/-- The integer `write_action_table` writes for an action. -/
def encodeAction : Action → Int
  | .shift s => s
  | .reduce p => -((p : Int) + 1)
  | .accept => 0
  | .error => -1

/-- How the generated `parse` loop reads an entry of `ACTION_TABLE`. -/
def decodeAction (v : Int) : Action :=
  if 0 < v then .shift v.toNat
  else if v < -1 then .reduce (-(v + 1)).toNat
  else if v = 0 then .accept
  else .error

/-- The cases of the generated `create_production_node`, each with the node class it builds. The
counter starts at 1 and moves on for every production; a production whose left-hand side is named
like the start symbol followed by an apostrophe gets no case. -/
def nodeCases (g : Grammar) : List (Nat × String) :=
  let start := (g.startSymbol.map Symbol.name).getD ""
  (g.productions.enum.filter fun ip => ip.2.lhs.name != start ++ "'").map
    fun ip => (ip.1 + 1, getAstNodeName ip.2.lhs.name)

end CppCodeGenerator

open CppCodeGenerator

/-- What `CppCodeGenerator` writes into the generated parser. -/
structure GeneratedParser where
  numStates : Nat
  tokenCases : List (String × Nat)
  actionTable : List (List Int)
  gotoTable : List (List Int)
  productionLhs : List Nat
  productionLength : List Nat
  nodeCases : List (Nat × String)

/-- `CppCodeGenerator(grammar, table)` followed by `generate_parser`. `numStates` is
`table_->num_states()`, the number of LALR states `generate_table` gave the table. What is written
is a parser only when `tokenEnumerators` has no repeat; otherwise the C++ compiler rejects it. -/
def CppCodeGenerator.generate (g : Grammar) (T : ParseTable) (numStates : Nat) : GeneratedParser where
  numStates := numStates
  tokenCases := tokenCases g.symbolTable
  actionTable := (List.range numStates).map fun s =>
    (actionColumns g.symbolTable).map fun a => encodeAction (T.getAction s a)
  gotoTable := (List.range numStates).map fun s =>
    (sortedNonterminals g.symbolTable).map fun x => ((T.getGoto s x).map Int.ofNat).getD (-1)
  productionLhs := g.productions.map fun p => (sortedNonterminals g.symbolTable).indexOf p.lhs
  productionLength := g.productions.map fun p => p.rhs.length
  nodeCases := nodeCases g

namespace GeneratedParser

/-- The generated `token_to_index`: the index of the first case with the token's label, −1 for
the default. -/
def tokenToIndex (P : GeneratedParser) (tok : String) : Int :=
  match P.tokenCases.lookup tok with
  | some i => i
  | none => -1

/-- The generated `get_action`: the entry of `ACTION_TABLE` in the state's row and the token's
column, −1 outside the table. -/
def getAction (P : GeneratedParser) (state : Nat) (tok : String) : Int :=
  if state < P.numStates then
    let i := P.tokenToIndex tok
    if 0 ≤ i then ((P.actionTable[state]?).bind (·[i.toNat]?)).getD (-1) else -1
  else -1

/-- The generated `create_production_node`: the node class of the production's case, or `none`
for the default case, which returns `nullptr` after logging `Unknown production ID`. -/
def createProductionNode (P : GeneratedParser) (p : Nat) : Option String := P.nodeCases.lookup p

end GeneratedParser

/-! ## Reading the action table back -/

/-- The generated loop reads back every action but `Shift(0)` and `Reduce(0)`. -/
theorem decodeAction_encodeAction {a : Action} (h0 : a ≠ .shift 0) (h1 : a ≠ .reduce 0) :
    decodeAction (encodeAction a) = a := by
  cases a with
  | shift s =>
    have : 0 < s := Nat.pos_of_ne_zero fun h => h0 (h ▸ rfl)
    simp [encodeAction, decodeAction, this]
  | reduce p =>
    have : 0 < p := Nat.pos_of_ne_zero fun h => h1 (h ▸ rfl)
    simp only [encodeAction, decodeAction]
    rw [if_neg (by omega), if_pos (by omega)]
    congr
    omega
  | accept => rfl
  | error => rfl

/-- In a switch over labels numbered from `k` without repeats, the label at `i` returns `k + i`. -/
theorem lookup_enumFrom_getElem {l : List String} (hnd : l.Nodup) (rest : List (String × Nat)) :
    ∀ (k i : Nat) (hi : i < l.length), ((l.enumFrom k).map Prod.swap ++ rest).lookup l[i] = some (k + i) := by
  induction l with
  | nil => intro _ _ hi; cases hi
  | cons x xs ih =>
    intro k i hi
    obtain ⟨hx, hnd⟩ := List.nodup_cons.mp hnd
    cases i with
    | zero => simp [List.lookup_cons, Prod.swap_prod_mk]
    | succ j =>
      have hj : j < xs.length := by simpa using hi
      have hne : xs[j] ≠ x := fun h => hx (h ▸ List.getElem_mem hj)
      have := ih hnd (k + 1) j hj
      simp only [List.enumFrom_cons, List.map_cons, List.cons_append, List.getElem_cons_succ,
        Prod.swap_prod_mk, List.lookup_cons, beq_false_of_ne hne, this, Option.some.injEq]
      omega

/-- A label that is not among the first cases falls through to the rest. -/
theorem lookup_enumFrom_of_not_mem {l : List String} {y : String} (hy : y ∉ l)
    (rest : List (String × Nat)) :
    ∀ k, ((l.enumFrom k).map Prod.swap ++ rest).lookup y = rest.lookup y := by
  induction l with
  | nil => intro _; rfl
  | cons x xs ih =>
    intro k
    have hne : y ≠ x := fun h => hy (h ▸ List.mem_cons_self x xs)
    simp only [List.enumFrom_cons, List.map_cons, List.cons_append, Prod.swap_prod_mk,
      List.lookup_cons, beq_false_of_ne hne]
    exact ih (fun h => hy (List.mem_cons_of_mem _ h)) _

/-- When no terminal is named `$`, the token enum has distinct enumerators exactly when the
terminals' token names are distinct and none of them is `EOF_TOKEN`. -/
theorem tokenEnumerators_nodup_iff {t : SymbolTable} (hdollar : ∀ a ∈ t.getTerminals, a.name ≠ "$") :
    (tokenEnumerators t).Nodup ↔ (t.getTerminals.map (toTokenName ·.name)).Nodup ∧
      ∀ a ∈ t.getTerminals, toTokenName a.name ≠ "EOF_TOKEN" := by
  have hts : tokenTerminals t = t.getTerminals :=
    List.filter_eq_self.mpr fun a ha => by simpa using hdollar a ha
  simp only [tokenEnumerators, hts, List.nodup_cons, List.mem_map, not_exists, not_and]
  exact and_comm

section Generated

variable (g : Grammar) (T : ParseTable) (n : Nat)

/-- In a row of the table, the generated `get_action` reads the encoded action of the column its
token's case returns. -/
theorem getAction_generate {s : Nat} (hs : s < n) {tok : String} {i : Nat}
    (htok : (tokenCases g.symbolTable).lookup tok = some i)
    (hi : i < (actionColumns g.symbolTable).length) :
    (generate g T n).getAction s tok =
      encodeAction (T.getAction s (actionColumns g.symbolTable)[i]) := by
  have : (0 : Int) ≤ i := Int.ofNat_nonneg i
  simp [GeneratedParser.getAction, GeneratedParser.tokenToIndex, generate, hs, htok, hi, this]

/-- Past the table's rows the generated `get_action` returns −1. -/
theorem getAction_generate_of_le {s : Nat} (hs : n ≤ s) (tok : String) :
    (generate g T n).getAction s tok = -1 := by
  simp [GeneratedParser.getAction, generate, Nat.not_lt.mpr hs]

end Generated

namespace LALR1Generator

variable {gen : LALR1Generator} {addr : Nat → Nat} {T : ParseTable}

theorem canonical_of_create {g : Grammar} (h : create g = some gen) :
    gen.lr0Automaton.Canonical gen.grammar.productions := by
  obtain ⟨A, hA, rfl⟩ := Option.map_eq_some'.mp h
  have hne : g.productions ≠ [] := fun hn => by simp [LR0Automaton.build_eq_none_iff.mpr hn] at hA
  obtain ⟨A', hA', hc⟩ := LR0Automaton.build_canonical hne
  obtain rfl := Option.some.inj (hA.symm.trans hA')
  exact hc

/-- A generated table holds neither `Shift(0)` nor `Reduce(0)` when production 0 passes the accept
test: no transition enters state 0, and production 0's complete item asks for `Accept`. -/
theorem getAction_ne_zero (hc : gen.lr0Automaton.Canonical gen.grammar.productions)
    (h0 : ∀ p, gen.grammar.productions[0]? = some p → p.looksAugmented = true)
    (hT : gen.generateTable addr = .ok T) (s : Nat) (a : Symbol) :
    T.getAction s a ≠ .shift 0 ∧ T.getAction s a ≠ .reduce 0 := by
  cases hcell : T.actionTable s a with
  | none => simp [ParseTable.getAction, hcell]
  | some act =>
    simp only [ParseTable.getAction, hcell, Option.getD_some]
    cases generateTable_actionTable_some hT hcell with
    | accept => simp
    | @reduce core it p _ _ hp _ hacc _ =>
      refine ⟨by simp, fun h => ?_⟩
      rw [Action.reduce.inj h] at hp
      simp [h0 p hp] at hacc
    | shift _ _ _ _ hj =>
      refine ⟨fun h => hc.getTransition_ne_zero s a ?_, by simp⟩
      rwa [← Action.shift.inj h]

/-- A row past the automaton's states is empty. -/
theorem getAction_of_le (hT : gen.generateTable addr = .ok T) {s : Nat}
    (hs : gen.lr0Automaton.states.length ≤ s) (a : Symbol) : T.getAction s a = .error := by
  have hnone : gen.lr0Automaton.states[s]? = none := List.getElem?_eq_none hs
  have hcell := (generateTable_actionTable_eq_none hT s a).mpr fun act h => by
    cases h <;> simp_all
  simp [ParseTable.getAction, hcell]

end LALR1Generator

open LALR1Generator

/-- The generated parser reads back the generated table. Take an augmented grammar built through
the API, none of whose terminals is named `$`, whose generated token enum compiles: its terminals
have pairwise different token names, none of them `EOF_TOKEN`. In every state, the generated
`get_action` decodes to the table's action on every terminal, and on `EOF_TOKEN` to its action
on `$`. -/
theorem generated_action_round_trip {g : Grammar} (hb : g.Built) (ha : g.isAugmented = true)
    (henum : (tokenEnumerators g.symbolTable).Nodup)
    (hdollar : ∀ a ∈ g.symbolTable.getTerminals, a.name ≠ "$") (addr : Nat → Nat) :
    ∃ gen T, create g = some gen ∧ gen.generateTable addr = .ok T ∧ ∀ s,
      (∀ a ∈ g.symbolTable.getTerminals,
        decodeAction ((generate g T gen.buildLalrStates.length).getAction s (toTokenName a.name)) =
          T.getAction s a) ∧
      decodeAction ((generate g T gen.buildLalrStates.length).getAction s "EOF_TOKEN") =
        T.getAction s endOfInputSymbol := by
  obtain ⟨hnames, heof⟩ := (tokenEnumerators_nodup_iff hdollar).mp henum
  obtain ⟨a₀, b₀, rest, hprods, -, hname, -⟩ := hb.wf.augmented ha
  obtain ⟨A, hA, hc⟩ := LR0Automaton.build_canonical (g := g) (by simp [hprods])
  obtain ⟨T, hT⟩ := generateTable_ok ⟨g, A⟩ addr ha
  have h0 : ∀ p, g.productions[0]? = some p → p.looksAugmented = true := by
    intro p hp
    simp only [hprods, List.getElem?_cons_zero, Option.some.injEq] at hp
    subst hp
    simp [Production.looksAugmented, hname, back_append_apostrophe]
  have hlen : (⟨g, A⟩ : LALR1Generator).buildLalrStates.length = A.states.length := by
    simp [buildLalrStates]
  have hts : tokenTerminals g.symbolTable = g.symbolTable.getTerminals :=
    List.filter_eq_self.mpr fun a ha => by simpa using hdollar a ha
  refine ⟨⟨g, A⟩, T, by simp [create, hA], hT, fun s => ?_⟩
  rw [hlen]
  by_cases hs : s < A.states.length
  · have hround : ∀ i (hi : i < (actionColumns g.symbolTable).length) tok,
        (tokenCases g.symbolTable).lookup tok = some i →
        decodeAction ((generate g T A.states.length).getAction s tok) =
          T.getAction s (actionColumns g.symbolTable)[i] := fun i hi tok htok => by
      rw [getAction_generate g T _ hs htok hi]
      exact decodeAction_encodeAction (getAction_ne_zero hc h0 hT s _).1
        (getAction_ne_zero hc h0 hT s _).2
    constructor
    · intro a ha
      obtain ⟨i, hi, rfl⟩ := List.mem_iff_getElem.mp ha
      have hi' : i < (actionColumns g.symbolTable).length := by
        simp [actionColumns, hts]; omega
      have hcol : (actionColumns g.symbolTable)[i] = g.symbolTable.getTerminals[i] := by
        simp only [actionColumns, hts]
        exact List.getElem_append_left hi
      have htok := lookup_enumFrom_getElem hnames [("EOF_TOKEN", g.symbolTable.getTerminals.length)]
        0 i (by simpa using hi)
      rw [hround i hi' _ (by simpa [tokenCases, hts, List.enum] using htok), hcol]
    · have hn : (tokenTerminals g.symbolTable).length < (actionColumns g.symbolTable).length := by
        simp [actionColumns]
      have hcol : (actionColumns g.symbolTable)[(tokenTerminals g.symbolTable).length] =
          endOfInputSymbol := by
        simp [actionColumns]
      rw [hround _ _ _ ?_, hcol]
      rw [tokenCases, List.enum, lookup_enumFrom_of_not_mem]
      · simp
      · simpa [hts] using heof
  · have hle : (⟨g, A⟩ : LALR1Generator).lr0Automaton.states.length ≤ s := Nat.not_lt.mp hs
    simp only [getAction_generate_of_le g T _ hle]
    exact ⟨fun a _ => (getAction_of_le hT hle a).symm, (getAction_of_le hT hle _).symm⟩

theorem generated_action_round_trip_expr :
    ∃ gen T, create exprGrammar.augment = some gen ∧ gen.generateTable id = .ok T ∧ ∀ s,
      (∀ a ∈ exprGrammar.augment.symbolTable.getTerminals,
        decodeAction ((generate exprGrammar.augment T gen.buildLalrStates.length).getAction s
          (toTokenName a.name)) = T.getAction s a) ∧
      decodeAction ((generate exprGrammar.augment T gen.buildLalrStates.length).getAction s
        "EOF_TOKEN") = T.getAction s endOfInputSymbol :=
  generated_action_round_trip (.augment exprGrammar_built) (by decide) (by decide) (by decide) id

/-! ## Reductions in the generated parser -/

/-- Cases numbered one past the index: the case one past `i` is the entry `i`. -/
theorem lookup_enumFrom_succ {α : Type} (f : α → String) :
    ∀ (l : List α) (k i : Nat) (hi : i < l.length),
      ((l.enumFrom k).map fun ip => (ip.1 + 1, f ip.2)).lookup (k + i + 1) = some (f l[i])
  | [], _, _, hi => absurd hi (Nat.not_lt_zero _)
  | x :: xs, k, 0, _ => by simp [List.lookup_cons]
  | x :: xs, k, j + 1, hi => by
    have ih := lookup_enumFrom_succ f xs (k + 1) j (by simpa using hi)
    rw [show k + 1 + j + 1 = k + (j + 1) + 1 by omega] at ih
    simp only [List.enumFrom_cons, List.map_cons, List.lookup_cons,
      beq_false_of_ne (show k + (j + 1) + 1 ≠ k + 1 by omega), ih, List.getElem_cons_succ]

section Generated

variable (g : Grammar) (T : ParseTable) (n : Nat)

/-- With no left-hand side named like the start symbol followed by an apostrophe, case `i + 1` of
the generated `create_production_node` builds the node class of production `i`. -/
theorem createProductionNode_succ
    (hskip : ∀ p ∈ g.productions, p.lhs.name ≠ (g.startSymbol.map Symbol.name).getD "" ++ "'")
    {i : Nat} {p : Production} (hp : g.productions[i]? = some p) :
    (generate g T n).createProductionNode (i + 1) = some (getAstNodeName p.lhs.name) := by
  obtain ⟨hi, rfl⟩ := List.getElem?_eq_some_iff.mp hp
  have hall : nodeCases g =
      g.productions.enum.map fun ip => (ip.1 + 1, getAstNodeName ip.2.lhs.name) := by
    rw [nodeCases, List.filter_eq_self.mpr]
    intro ip hip
    simpa using hskip ip.2 (List.snd_mem_of_mem_enum hip)
  simpa [GeneratedParser.createProductionNode, generate, hall, List.enum] using
    lookup_enumFrom_succ (getAstNodeName ·.lhs.name) g.productions 0 i hi

/-- `reduce` pops `PRODUCTION_LENGTH[p] = |rhs p|` frames and reads the `GOTO_TABLE` column of the
left-hand side of `p`: `PRODUCTION_LHS` and `GOTO_TABLE` order the nonterminals alike. -/
theorem reduce_tables {s : Nat} (hs : s < n) {p : Nat} {q : Production}
    (hq : g.productions[p]? = some q) (hlhs : q.lhs ∈ g.symbolTable.getNonterminals) :
    (generate g T n).productionLength[p]? = some q.rhs.length ∧
    ∃ k, (generate g T n).productionLhs[p]? = some k ∧
      ((generate g T n).gotoTable[s]?).bind (·[k]?) =
        some (((T.getGoto s q.lhs).map Int.ofNat).getD (-1)) := by
  have hmem : q.lhs ∈ sortedNonterminals g.symbolTable :=
    (List.perm_insertionSort _ _).mem_iff.mpr hlhs
  have hlt := List.indexOf_lt_length.mpr hmem
  refine ⟨by simp [generate, hq], (sortedNonterminals g.symbolTable).indexOf q.lhs,
    by simp [generate, hq], ?_⟩
  simp [generate, hs, List.getElem?_eq_getElem hlt, List.getElem_indexOf]

end Generated

/-- On `exprGrammar`, augmented, state 3 reduces `T → num` (production 3) on `$`. The generated
`reduce(3)` pops one frame and reads the goto column of `T` (from state 0, where `num` was
shifted), as `parse_internal` does, but `create_production_node(3)` builds an `ENode`, the class
of `E`, the left-hand side of production 2, where `parse_internal` builds a node of `T`. -/
theorem generated_reduce_builds_wrong_class :
    ∃ gen T, create exprGrammar.augment = some gen ∧ gen.generateTable id = .ok T ∧
      T.getAction 3 endOfInputSymbol = .reduce 3 ∧
      exprGrammar.augment.productions[3]? = some ⟨.nonterminal "T", [.terminal "num" .number]⟩ ∧
      (generate exprGrammar.augment T gen.buildLalrStates.length).productionLength[3]? = some 1 ∧
      (∃ k, (generate exprGrammar.augment T gen.buildLalrStates.length).productionLhs[3]? = some k ∧
        ((generate exprGrammar.augment T gen.buildLalrStates.length).gotoTable[0]?).bind (·[k]?) =
          some (((T.getGoto 0 (.nonterminal "T")).map Int.ofNat).getD (-1))) ∧
      (generate exprGrammar.augment T gen.buildLalrStates.length).createProductionNode 3 =
        some "ENode" ∧
      getAstNodeName "T" = "TNode" := by
  obtain ⟨A, hA⟩ : ∃ A, LR0Automaton.build exprGrammar.augment = some A :=
    Option.isSome_iff_exists.mp (by decide)
  have hstates := (by decide : (LR0Automaton.build exprGrammar.augment).all (fun A =>
    decide (0 < A.states.length) && A.states[3]? == some [⟨3, 1⟩]) = true)
  simp only [hA, Option.all_some, Bool.and_eq_true, decide_eq_true_eq, beq_iff_eq] at hstates
  obtain ⟨hpos, h3⟩ := hstates
  obtain ⟨T, hT⟩ := generateTable_ok ⟨exprGrammar.augment, A⟩ id
    (by decide : exprGrammar.augment.isAugmented = true)
  have hq : exprGrammar.augment.productions[3]? =
      some ⟨.nonterminal "T", [.terminal "num" .number]⟩ := by decide
  -- state 3 is `{T → num •}`, which asks only for `Reduce(3)` on `$`
  have hcell : CellAction ⟨exprGrammar.augment, A⟩ 3 endOfInputSymbol (.reduce 3) :=
    .reduce h3 (List.mem_singleton_self (⟨3, 1⟩ : LR0Item)) hq
      (by decide : LR0Item.isComplete exprGrammar.augment.productions ⟨3, 1⟩ = true) rfl
      (by decide : endOfInputSymbol ∈ exprGrammar.augment.constFollowSet (.nonterminal "T"))
  have hred := getAction_of_cellAction_unique hT hcell fun act h => by
    cases h with
    | accept hc hit hp _ hacc _ =>
      obtain rfl := List.mem_singleton.mp (Option.some.inj (hc.symm.trans h3) ▸ hit)
      obtain rfl := Option.some.inj (hp.symm.trans hq)
      exact absurd hacc (by decide)
    | reduce hc hit =>
      obtain rfl := List.mem_singleton.mp (Option.some.inj (hc.symm.trans h3) ▸ hit)
      rfl
    | shift hc hit hn =>
      obtain rfl := List.mem_singleton.mp (Option.some.inj (hc.symm.trans h3) ▸ hit)
      simp [LR0Item.nextSymbol, rhsOf, hq] at hn
  have hlen : (⟨exprGrammar.augment, A⟩ : LALR1Generator).buildLalrStates.length =
      A.states.length := by
    simp [buildLalrStates]
  obtain ⟨hlen', hlhs⟩ := reduce_tables exprGrammar.augment T _ (hlen ▸ hpos) hq (by decide)
  refine ⟨_, T, by simp [create, hA], hT, hred, hq, hlen', hlhs, ?_, by decide⟩
  exact createProductionNode_succ exprGrammar.augment T _ (by decide) (i := 2)
    (p := ⟨.nonterminal "E", [.nonterminal "T"]⟩) (by decide)

end Lalr1
