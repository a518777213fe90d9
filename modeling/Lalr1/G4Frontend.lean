import Lalr1.G4Parser
import Lalr1.Derivation
import Lalr1.Parser

/-!
# The ANTLR front end

`G4Parser::parse_string` (`g4_parser.cpp`) turns the text of a `.g4` file into a `Grammar`:
`remove_comments`, then `parse_grammar_declaration`, then `parse_rules`, which finds every
`name : body ;` with a regular expression and records a parser rule (`parse_parser_rule`, split
into alternatives) or, for a capitalised name, a lexer rule (`parse_lexer_rule`); with no error it
returns `convert_to_grammar`, which builds the grammar through the `Grammar` API:
`convert_parser_rules` adds one production per alternative, `convert_lexer_rules` one terminal per
lexer rule that is neither a fragment nor skipped, and the first parser rule gives the start
symbol. The regular expressions are modelled by what `std::regex` (ECMAScript) matches with
them, and `std::string` texts are lists of characters. Verbose printing is left out.

What the front end gives:

* every grammar it returns is built through the API, with one production per expanded
  alternative, read word by word (`convertToGrammar_spec`, `parseString_grammar`);
* it fails exactly when the text has no grammar declaration: the format errors of
  `parse_parser_rule` and `parse_lexer_rule` cannot happen on the texts `parse_rules` passes
  (`parseString_eq_none_iff`);
* `parse_rules` reads back the rules of a text written `name : body ;` rule after rule, and the
  whole front end the grammar of such a text (`scanRules_printRules`, `parseString_printGrammar`);
* all terminals get the token type `IDENTIFIER`, so `parse_internal` reads every token but the
  end of input as the first terminal of the table, or as unknown (`terminalFor_parseString`);
* `is_fragment` is never set, since a lexer rule's name is capitalised (`parseString_not_fragment`);
* `remove_comments` removes a `//` comment only on the last line and a block comment only when it
  lies on one line (`eraseLineComments_append_newline`, `eraseBlockComments_keeps_open`).
-/

namespace Lalr1

namespace G4Parser

/-! ## Matching with the front end's regular expressions -/

/-- `std::string::find(needle) != npos`. -/
def containsText (needle text : List Char) : Bool := text.tails.any needle.isPrefixOf

/-- Where `(\w+)\s*:` matches at the start of a text: the name (the longest run of word
characters; a shorter one leaves a word character where `\s*:` must start) and the text after
the colon. -/
def matchNameColon (text : List Char) : Option (List Char × List Char) :=
  match (text.dropWhile isWordChar).dropWhile isSpace with
  | ':' :: rest => if text.takeWhile isWordChar = [] then none else some (text.takeWhile isWordChar, rest)
  | _ => none

/-- `std::regex_match(rule_text, match, (\w+)\s*:\s*(.*))`: the name and the rest of a rule text.
The greedy `\s*` takes the blanks after the colon, and the rest matches `.*` when it holds no
line terminator. -/
def matchRuleText (text : List Char) : Option (List Char × List Char) :=
  (matchNameColon text).bind fun (name, rest) =>
    let body := rest.dropWhile isSpace
    if body.any isLineTerminator then none else some (name, body)

/-- The body `([\s\S]*?)\s*;` captures after `\s*`: the shortest text followed by blanks and a
`;`, so the text before the first `;` without its trailing blanks. -/
def lazyBody (rest : List Char) : List Char :=
  ((rest.takeWhile (· ≠ ';')).reverse.dropWhile isSpace).reverse

/-- Where `(\w+)\s*:\s*([\s\S]*?)\s*;` matches at the start of a text: the name, the body and the
text after the `;`. -/
def matchRuleAt (text : List Char) : Option (List Char × List Char × List Char) :=
  (matchNameColon text).bind fun (name, rest) =>
    let rest := rest.dropWhile isSpace
    if ';' ∈ rest then some (name, lazyBody rest, (rest.dropWhile (· ≠ ';')).tail) else none

/-- `std::regex_search`: the match at the leftmost position that has one. -/
def searchRule : List Char → Option (List Char × List Char × List Char)
  | [] => none
  | c :: cs => (matchRuleAt (c :: cs)).orElse fun _ => searchRule cs

/-- Where `grammar\s+(\w+)\s*;` matches at the start of a text: the grammar's name. -/
def matchGrammarAt (text : List Char) : Option (List Char) :=
  if "grammar".toList.isPrefixOf text && ((text.drop 7).head?.map isSpace).getD false then
    let rest := (text.drop 7).dropWhile isSpace
    let name := rest.takeWhile isWordChar
    if name ≠ [] ∧ ((rest.dropWhile isWordChar).dropWhile isSpace).head? = some ';' then some name
    else none
  else none

/-- `std::regex_search` with `grammar\s+(\w+)\s*;`. -/
def searchGrammar : List Char → Option (List Char)
  | [] => none
  | c :: cs => (matchGrammarAt (c :: cs)).orElse fun _ => searchGrammar cs

/-- `std::regex_replace(text, re, "")`, given where `re` matches at the start of a text (the length
of the match): every match is cut out, left to right, and the search goes on after it. The fuel
bounds the iterations; the length of the text is enough when every match is not empty
(`eraseMatches_fuel`). -/
def eraseMatches (matchLen : List Char → Option Nat) : Nat → List Char → List Char
  | 0, text => text
  | _ + 1, [] => []
  | fuel + 1, c :: cs =>
    match matchLen (c :: cs) with
    | some n => eraseMatches matchLen fuel ((c :: cs).drop n)
    | none => c :: eraseMatches matchLen fuel cs

/-- Where `//.*?$` matches: `$` is the end of the text (no `multiline` flag) and `.` stops at a line
terminator, so a `//` with no line terminator after it, to the end of the text. -/
def lineCommentAt : List Char → Option Nat
  | '/' :: '/' :: rest => if rest.any isLineTerminator then none else some (rest.length + 2)
  | _ => none

/-- The length of the shortest `.*?\*/`: up to the first `*/`, with no line terminator before it. -/
def blockEnd : List Char → Option Nat
  | '*' :: '/' :: _ => some 2
  | c :: cs => if isLineTerminator c then none else (blockEnd cs).map (· + 1)
  | [] => none

/-- Where `/\*.*?\*/` matches. -/
def blockCommentAt : List Char → Option Nat
  | '/' :: '*' :: rest => (blockEnd rest).map (· + 2)
  | _ => none

/-- Where `/\*\*.*?\*/` matches. -/
def docCommentAt : List Char → Option Nat
  | '/' :: '*' :: '*' :: rest => (blockEnd rest).map (· + 3)
  | _ => none

/-- `G4Parser::remove_comments`: the three `regex_replace` calls, in the source's order. -/
def removeComments (content : List Char) : List Char :=
  let r := eraseMatches lineCommentAt content.length content
  let r := eraseMatches blockCommentAt r.length r
  eraseMatches docCommentAt r.length r

/-! ## The parser's rules -/

/-- `struct G4Rule`: a parser rule and its alternatives. -/
structure G4Rule where
  name : List Char
  alternatives : List (List Char)
  isLexerRule : Bool
  deriving DecidableEq, Repr

/-- `struct G4Token`: a lexer rule. -/
structure G4Token where
  name : List Char
  pattern : List Char
  isFragment : Bool
  isSkip : Bool
  deriving DecidableEq, Repr

/-- The members of `G4Parser` that parsing changes: `errors_`, `grammar_name_`, `parser_rules_`
and `lexer_rules_`. -/
structure G4State where
  errors : List String
  grammarName : List Char
  parserRules : List G4Rule
  lexerRules : List G4Token
  deriving DecidableEq, Repr

/-- `G4Parser::add_error`. -/
def addError (st : G4State) (message : String) : G4State := { st with errors := st.errors ++ [message] }

/-- `G4Parser::is_lexer_rule_name`: a name that starts with a capital letter. -/
def isLexerRuleName : List Char → Bool
  | [] => false
  | c :: _ => c.isUpper

/-- `G4Parser::parse_parser_rule`. -/
def parseParserRule (st : G4State) (ruleText : List Char) : G4State :=
  match matchRuleText ruleText with
  | none => addError st ("Invalid parser rule format: " ++ String.mk ruleText)
  | some (name, alternativesText) =>
    { st with parserRules := st.parserRules ++ [⟨name, splitAlternatives alternativesText, false⟩] }

/-- `G4Parser::parse_lexer_rule`: `is_fragment` when the name starts with `fragment`, `is_skip`
when the pattern holds `-> skip`. -/
def parseLexerRule (st : G4State) (ruleText : List Char) : G4State :=
  match matchRuleText ruleText with
  | none => addError st ("Invalid lexer rule format: " ++ String.mk ruleText)
  | some (name, body) =>
    let pattern := normalizeWhitespace body
    { st with lexerRules := st.lexerRules ++
      [⟨name, pattern, "fragment".toList.isPrefixOf name, containsText "-> skip".toList pattern⟩] }

/-- The body of one iteration of `parse_rules`: normalise the body twice (the `regex_replace` and
`normalize_whitespace`) and hand `name : body` to the parser or the lexer rule. -/
def parseRule (st : G4State) (rule : List Char × List Char) : G4State :=
  let body := normalizeWhitespace (normalizeWhitespace rule.2)
  let ruleText := rule.1 ++ " : ".toList ++ body
  if isLexerRuleName rule.1 then parseLexerRule st ruleText else parseParserRule st ruleText

/-- The `while (std::regex_search(...))` loop of `parse_rules`, searching from `searchStart`; the fuel
bounds the iterations, and the length of the text is enough (`parseRulesLoop_fuel`). -/
def parseRulesLoop : Nat → G4State → List Char → G4State
  | 0, st, _ => st
  | fuel + 1, st, searchStart =>
    match searchRule searchStart with
    | none => st
    | some (name, body, suffix) => parseRulesLoop fuel (parseRule st (name, body)) suffix

/-- `G4Parser::parse_rules`. -/
def parseRules (st : G4State) (content : List Char) : G4State :=
  parseRulesLoop content.length st content

/-- `G4Parser::parse_grammar_declaration`. -/
def parseGrammarDeclaration (st : G4State) (content : List Char) : G4State :=
  match searchGrammar content with
  | some name => { st with grammarName := name }
  | none => addError st "No grammar declaration found"

/-! ## Building the grammar -/

/-- The words `std::istringstream >> token` reads from a text: its maximal runs of characters
that are not white space. -/
def words (text : List Char) : List (List Char) := (text.splitOnP isSpace).filter (· ≠ [])

/-- One word of an alternative in the loop of `convert_parser_rules`: a terminal for a lexer rule
name or for a quoted literal (without its quotes), a nonterminal otherwise. Every terminal gets
the token type `IDENTIFIER`. -/
def internWord (g : Grammar) (token : List Char) : Symbol × Grammar :=
  if isLexerRuleName token then g.getTerminal (String.mk token) .identifier
  else if token.head? = some '\'' ∧ token.getLast? = some '\'' then
    g.getTerminal (String.mk ((token.drop 1).take (token.length - 2))) .identifier
  else g.getNonterminal (String.mk token)

/-- The `while (iss >> token)` loop: the right-hand side, `EOF` skipped. -/
def internWords (g : Grammar) : List (List Char) → List Symbol × Grammar
  | [] => ([], g)
  | w :: ws =>
    if w = "EOF".toList then internWords g ws
    else
      let r := internWord g w
      let rest := internWords r.2 ws
      (r.1 :: rest.1, rest.2)

/-- One expanded alternative of `convert_parser_rules`: its production, `[ε]` for an empty one. -/
def convertProduction (lhs : Symbol) (g : Grammar) (productionStr : List Char) : Grammar :=
  let r := internWords g (words productionStr)
  r.2.addProduction lhs (if r.1 = [] then [epsilonSymbol] else r.1)

/-- One parser rule of `convert_parser_rules`. -/
def convertRule (g : Grammar) (rule : G4Rule) : Grammar :=
  let lhs := g.getNonterminal (String.mk rule.name)
  rule.alternatives.foldl (fun g alt => (expandEbnf alt).foldl (convertProduction lhs.1) g) lhs.2

/-- `G4Parser::convert_parser_rules`. -/
def convertParserRules (g : Grammar) (rules : List G4Rule) : Grammar := rules.foldl convertRule g

/-- `G4Parser::convert_lexer_rules`: a terminal for every rule that is neither a fragment nor
skipped. -/
def convertLexerRules (g : Grammar) (tokens : List G4Token) : Grammar :=
  tokens.foldl (fun g t => if !t.isFragment && !t.isSkip then (g.getTerminal (String.mk t.name) .identifier).2
    else g) g

/-- `G4Parser::convert_to_grammar`: the start symbol is the nonterminal of the first parser rule. -/
def convertToGrammar (parserRules : List G4Rule) (lexerRules : List G4Token) : Grammar :=
  let g := convertLexerRules (convertParserRules Grammar.new parserRules) lexerRules
  match parserRules with
  | [] => g
  | r :: _ =>
    let s := g.getNonterminal (String.mk r.name)
    s.2.setStartSymbol s.1

/-- `G4Parser::parse_string`: the state after parsing and the grammar, `nullptr` (`none`) when an
error was logged. -/
def parseString (st : G4State) (content : List Char) : G4State × Option Grammar :=
  let st : G4State := { st with errors := [], parserRules := [], lexerRules := [] }
  let cleanContent := removeComments content
  let st := parseRules (parseGrammarDeclaration st cleanContent) cleanContent
  if st.errors = [] then (st, some (convertToGrammar st.parserRules st.lexerRules)) else (st, none)

/-! ## What the conversion builds -/

/-- The symbol a word of an alternative stands for. -/
def wordSymbol (token : List Char) : Symbol :=
  if isLexerRuleName token then .terminal (String.mk token) .identifier
  else if token.head? = some '\'' ∧ token.getLast? = some '\'' then
    .terminal (String.mk ((token.drop 1).take (token.length - 2))) .identifier
  else .nonterminal (String.mk token)

/-- The right-hand side of an expanded alternative: the symbols of its words other than `EOF`,
`[ε]` when there is none. -/
def rhsOf (productionStr : List Char) : List Symbol :=
  let rhs := ((words productionStr).filter (· ≠ "EOF".toList)).map wordSymbol
  if rhs = [] then [epsilonSymbol] else rhs

/-- The productions of a parser rule: one for every alternative `expand_ebnf` gives. -/
def ruleProductions (rule : G4Rule) : List Production :=
  rule.alternatives.flatMap fun alt =>
    (expandEbnf alt).map fun s => ⟨.nonterminal (String.mk rule.name), rhsOf s⟩

/-- The grammars the conversion goes through: built through the API, with ε in the table, every
terminal of token type `IDENTIFIER` and every nonterminal as `get_nonterminal` creates it. -/
structure Converted (g : Grammar) : Prop where
  built : g.Built
  epsilon_mem : epsilonSymbol ∈ g.symbolTable.symbols
  terminal : ∀ x ∈ g.symbolTable.symbols, x.isTerminal = true → x.tokenType = .identifier
  nonterminal : ∀ x ∈ g.symbolTable.symbols, x.isNonterminal = true → x = .nonterminal x.name

namespace Converted

variable {g : Grammar}

theorem new : Converted Grammar.new :=
  ⟨.new, by simp [Grammar.new, SymbolTable.new], by decide, by decide⟩

theorem getTerminal (hc : Converted g) (name : String) :
    Converted (g.getTerminal name .identifier).2 := by
  refine ⟨.getTerminal name _ hc.built, SymbolTable.getTerminal_subset _ _ _ hc.epsilon_mem,
    fun x hx => ?_, fun x hx => ?_⟩ <;>
  rcases SymbolTable.mem_getTerminal hx with hx | rfl
  · exact hc.terminal x hx
  · exact fun _ => rfl
  · exact hc.nonterminal x hx
  · intro h; cases h

theorem getNonterminal (hc : Converted g) (name : String) : Converted (g.getNonterminal name).2 := by
  refine ⟨.getNonterminal name hc.built, SymbolTable.getNonterminal_subset _ _ hc.epsilon_mem,
    fun x hx => ?_, fun x hx => ?_⟩ <;>
  rcases SymbolTable.mem_getNonterminal hx with hx | rfl
  · exact hc.terminal x hx
  · intro h; cases h
  · exact hc.nonterminal x hx
  · exact fun _ => rfl

theorem addProduction (hc : Converted g) {lhs : Symbol} {rhs : List Symbol}
    (hl : lhs ∈ g.symbolTable.symbols) (hr : ∀ x ∈ rhs, x ∈ g.symbolTable.symbols) :
    Converted (g.addProduction lhs rhs) :=
  ⟨.addProduction hc.built hl hr, hc.epsilon_mem, hc.terminal, hc.nonterminal⟩

theorem setStartSymbol (hc : Converted g) {s : Symbol} (hs : s ∈ g.symbolTable.symbols) :
    Converted (g.setStartSymbol s) :=
  ⟨.setStartSymbol hc.built hs, hc.epsilon_mem, hc.terminal, hc.nonterminal⟩

/-- In a converted grammar, `get_nonterminal` returns the nonterminal of that name. -/
theorem getNonterminal_fst (hc : Converted g) (name : String) :
    (g.getNonterminal name).1 = .nonterminal name := by
  simp only [Grammar.getNonterminal, SymbolTable.getNonterminal]
  split
  · rename_i x hx
    obtain ⟨hn, hnt⟩ := by simpa using List.find?_some hx
    rw [hc.nonterminal x (List.mem_of_find?_eq_some hx) (by simpa using hnt), hn]
  · rfl

end Converted

/-- `get_terminal` returns the terminal of that name and token type. -/
theorem getTerminal_fst (g : Grammar) (name : String) (tt : TokenType) :
    (g.getTerminal name tt).1 = .terminal name tt := by
  simp only [Grammar.getTerminal, SymbolTable.getTerminal]
  split
  · rename_i x hx
    obtain ⟨⟨hn, ht⟩, htt⟩ := by simpa using List.find?_some hx
    cases x
    simp_all [Symbol.terminal]
  · rfl

/-! ## The conversion, step by step -/

/-- A stretch of the conversion from `g` to `g'` that appends the productions `ps`: the result is
converted and its table holds the old one. -/
structure Extends (g g' : Grammar) (ps : List Production) : Prop where
  converted : Converted g'
  subset : g.symbolTable.symbols ⊆ g'.symbolTable.symbols
  productions : g'.productions = g.productions ++ ps
  start : g'.startSymbol = g.startSymbol

namespace Extends

variable {g g' g'' : Grammar} {ps qs : List Production}

theorem refl (hc : Converted g) : Extends g g [] := ⟨hc, List.Subset.refl _, by simp, rfl⟩

theorem trans (h₁ : Extends g g' ps) (h₂ : Extends g' g'' qs) : Extends g g'' (ps ++ qs) :=
  ⟨h₂.converted, h₁.subset.trans h₂.subset, by rw [h₂.productions, h₁.productions, List.append_assoc],
    h₂.start.trans h₁.start⟩

/-- Interning a terminal only grows the table. -/
theorem getTerminal (hc : Converted g) (name : String) :
    Extends g (g.getTerminal name .identifier).2 [] :=
  ⟨hc.getTerminal name, SymbolTable.getTerminal_subset .., by simp [Grammar.getTerminal], rfl⟩

/-- Interning a nonterminal only grows the table. -/
theorem getNonterminal (hc : Converted g) (name : String) : Extends g (g.getNonterminal name).2 [] :=
  ⟨hc.getNonterminal name, SymbolTable.getNonterminal_subset .., by simp [Grammar.getNonterminal], rfl⟩

/-- Run lemma for the loops of the conversion: a fold whose every step extends a converted grammar
holding the symbols `S` extends it by all the steps' productions. -/
theorem foldl {α : Type} {S : List Symbol} {f : Grammar → α → Grammar} {ps : α → List Production}
    (hf : ∀ g a, Converted g → S ⊆ g.symbolTable.symbols → Extends g (f g a) (ps a)) :
    ∀ (as : List α) (g : Grammar), Converted g → S ⊆ g.symbolTable.symbols →
      Extends g (as.foldl f g) (as.flatMap ps)
  | [], g, hc, _ => by simpa using refl hc
  | a :: as, g, hc, hS => by
    have h₁ := hf g a hc hS
    simpa using h₁.trans (foldl hf as _ h₁.converted (hS.trans h₁.subset))

end Extends

variable {g : Grammar}

/-- Interning one word of an alternative: the word's symbol, now in the table. -/
theorem internWord_spec (hc : Converted g) (w : List Char) :
    (internWord g w).1 = wordSymbol w ∧ (internWord g w).1 ∈ (internWord g w).2.symbolTable.symbols ∧
      Extends g (internWord g w).2 [] := by
  unfold internWord wordSymbol
  split_ifs
  · exact ⟨getTerminal_fst .., SymbolTable.getTerminal_mem .., .getTerminal hc _⟩
  · exact ⟨getTerminal_fst .., SymbolTable.getTerminal_mem .., .getTerminal hc _⟩
  · exact ⟨hc.getNonterminal_fst _, SymbolTable.getNonterminal_mem .., .getNonterminal hc _⟩

/-- The loop over the words of an alternative: the symbols of the words other than `EOF`, all in
the table. -/
theorem internWords_spec : ∀ (ws : List (List Char)) {g : Grammar}, Converted g →
    (internWords g ws).1 = (ws.filter (· ≠ "EOF".toList)).map wordSymbol ∧
      (∀ x ∈ (internWords g ws).1, x ∈ (internWords g ws).2.symbolTable.symbols) ∧
      Extends g (internWords g ws).2 []
  | [], g, hc => ⟨rfl, by simp [internWords], .refl hc⟩
  | w :: ws, g, hc => by
    by_cases hw : w = "EOF".toList
    · simpa [internWords, hw] using internWords_spec ws hc
    · obtain ⟨h₁, hmem, hext⟩ := internWord_spec hc w
      obtain ⟨ih₁, ihmem, ihext⟩ := internWords_spec ws hext.converted
      rw [internWords, if_neg hw]
      dsimp only
      refine ⟨?_, ?_, hext.trans ihext⟩
      · rw [h₁, ih₁, List.filter_cons_of_pos (by simpa using hw), List.map_cons]
      · rintro x (_ | ⟨_, hx⟩)
        · exact ihext.subset hmem
        · exact ihmem x hx

/-- One expanded alternative adds its production. -/
theorem convertProduction_spec (hc : Converted g) {lhs : Symbol} (hl : lhs ∈ g.symbolTable.symbols)
    (s : List Char) : Extends g (convertProduction lhs g s) [⟨lhs, rhsOf s⟩] := by
  obtain ⟨h₁, hmem, hext⟩ := internWords_spec (words s) hc
  have hrhs : ∀ x ∈ (if (internWords g (words s)).1 = [] then [epsilonSymbol]
      else (internWords g (words s)).1), x ∈ (internWords g (words s)).2.symbolTable.symbols := by
    split
    · simpa using hext.converted.epsilon_mem
    · exact hmem
  refine ⟨hext.converted.addProduction (hext.subset hl) hrhs, hext.subset, ?_, hext.start⟩
  simp [convertProduction, Grammar.addProduction, Grammar.clearCache, hext.productions, rhsOf, h₁]

/-- One parser rule adds its productions. -/
theorem convertRule_spec (hc : Converted g) (rule : G4Rule) :
    Extends g (convertRule g rule) (ruleProductions rule) := by
  have hlhs := hc.getNonterminal_fst (String.mk rule.name)
  have hext := Extends.getNonterminal hc (String.mk rule.name)
  have hS : [(g.getNonterminal (String.mk rule.name)).1] ⊆
      (g.getNonterminal (String.mk rule.name)).2.symbolTable.symbols := by
    simpa using SymbolTable.getNonterminal_mem _ _
  have hrun := Extends.foldl (fun g alt hc hS => Extends.foldl
      (fun g s hc hS => convertProduction_spec hc (hS (List.mem_singleton_self _)) s)
      (expandEbnf alt) g hc hS) rule.alternatives _ hext.converted hS
  rw [hlhs] at hrun
  simpa [convertRule, hlhs, ruleProductions, List.map_eq_flatMap] using hext.trans hrun

/-- `convert_parser_rules` adds the productions of every rule, in order. -/
theorem convertParserRules_spec (hc : Converted g) (rules : List G4Rule) :
    Extends g (convertParserRules g rules) (rules.flatMap ruleProductions) :=
  Extends.foldl (S := []) (fun _ r hc _ => convertRule_spec hc r) rules g hc (List.nil_subset _)

/-- `convert_lexer_rules` only interns terminals. -/
theorem convertLexerRules_spec (hc : Converted g) (tokens : List G4Token) :
    Extends g (convertLexerRules g tokens) [] := by
  have hstep : ∀ g (t : G4Token), Converted g → [] ⊆ g.symbolTable.symbols →
      Extends g (if !t.isFragment && !t.isSkip then (g.getTerminal (String.mk t.name) .identifier).2
        else g) [] := by
    intro _ t hc _
    split
    · exact .getTerminal hc _
    · exact .refl hc
  have h := Extends.foldl hstep tokens g hc (List.nil_subset _)
  rwa [List.flatMap_eq_nil_iff.mpr fun _ _ => rfl] at h

/-- `convert_to_grammar`: a converted grammar with the productions of the parser rules, in order,
and the nonterminal of the first parser rule as its start symbol. -/
theorem convertToGrammar_spec (parserRules : List G4Rule) (lexerRules : List G4Token) :
    Converted (convertToGrammar parserRules lexerRules) ∧
      (convertToGrammar parserRules lexerRules).productions = parserRules.flatMap ruleProductions ∧
      (convertToGrammar parserRules lexerRules).startSymbol =
        parserRules.head?.map fun r => .nonterminal (String.mk r.name) := by
  have hp := convertParserRules_spec .new parserRules
  have h := hp.trans (convertLexerRules_spec hp.converted lexerRules)
  cases parserRules with
  | nil => exact ⟨h.converted, by simpa using h.productions, h.start⟩
  | cons r rs =>
    have hn := Extends.getNonterminal h.converted (String.mk r.name)
    refine ⟨hn.converted.setStartSymbol (SymbolTable.getNonterminal_mem _ _), ?_, ?_⟩
    · simpa [convertToGrammar, Grammar.setStartSymbol, hn.productions] using h.productions
    · simp [convertToGrammar, Grammar.setStartSymbol, h.converted.getNonterminal_fst]

namespace Converted

theorem augment (hc : Converted g) : Converted g.augment := by
  cases ha : g.isAugmented
  · cases hs : g.startSymbol with
    | none => rwa [Grammar.augment_of_startSymbol_eq_none hs]
    | some s =>
      have h := hc.getNonterminal (s.name ++ "'")
      refine ⟨.augment hc.built, ?_, ?_, ?_⟩ <;> rw [Grammar.augment_symbolTable ha hs]
      exacts [h.epsilon_mem, h.terminal, h.nonterminal]
  · rwa [Grammar.augment_of_isAugmented ha]

/-- On a converted grammar, `parse_internal` reads the end of input as `$`, every other token of
type `IDENTIFIER` as the first terminal of the table, and any other token as unknown. -/
theorem terminalFor_eq (hc : Converted g) (tok : Token) :
    LALR1Parser.terminalFor g tok = if tok.isEof then some endOfInputSymbol
      else if tok.type = .identifier then g.symbolTable.getTerminals.head? else none := by
  unfold LALR1Parser.terminalFor
  split
  · rfl
  · have hp : ∀ s ∈ g.symbolTable.getTerminals,
        (s.isTerminal && s.tokenType == tok.type) = (TokenType.identifier == tok.type) := by
      intro s hs
      obtain ⟨hmem, ht⟩ := List.mem_filter.mp hs
      rw [ht, hc.terminal s hmem ht, Bool.true_and]
    split
    · rename_i hid
      cases hts : g.symbolTable.getTerminals with
      | nil => rfl
      | cons s rest =>
        rw [List.find?_cons, hp s (hts ▸ List.mem_cons_self _ _), beq_iff_eq.mpr hid.symm]
        rfl
    · rename_i hid
      exact List.find?_eq_none.mpr fun s hs => by rw [hp s hs]; simpa using Ne.symm hid

end Converted

/-! ## What `parse_rules` records -/

theorem isSpace_of_isLineTerminator {c : Char} (h : isLineTerminator c = true) : isSpace c = true := by
  simp only [isLineTerminator, Bool.or_eq_true, decide_eq_true_eq] at h
  rcases h with rfl | rfl <;> rfl

/-- A normalised text holds no line terminator: every run of white space became a blank. -/
theorem isLineTerminator_of_mem_normalizeWhitespace :
    ∀ {inRun : Bool} {text : List Char} {c : Char}, c ∈ normalizeWhitespace.go inRun text →
      isLineTerminator c = false
  | _, [], _, h => absurd h (List.not_mem_nil _)
  | inRun, d :: ds, c, h => by
    unfold normalizeWhitespace.go at h
    split_ifs at h with hs
    · exact isLineTerminator_of_mem_normalizeWhitespace h
    · rcases List.mem_cons.mp h with rfl | h
      · rfl
      · exact isLineTerminator_of_mem_normalizeWhitespace h
    · rcases List.mem_cons.mp h with rfl | h
      · exact Bool.eq_false_iff.mpr fun ht => hs (isSpace_of_isLineTerminator ht)
      · exact isLineTerminator_of_mem_normalizeWhitespace h

/-- `(\w+)\s*:` at the start of `name : …`. -/
theorem matchNameColon_append {name rest : List Char} (hn : name ≠ [])
    (hw : ∀ c ∈ name, isWordChar c = true) :
    matchNameColon (name ++ ' ' :: ':' :: rest) = some (name, rest) := by
  have ht : (name ++ ' ' :: ':' :: rest).takeWhile isWordChar = name := by
    rw [List.takeWhile_append_of_pos hw]
    exact List.append_nil name
  unfold matchNameColon
  rw [List.dropWhile_append_of_pos hw, ht]
  simp [hn]
  rfl

/-- What `(\w+)\s*:` finds: a name of word characters, and a shorter text after the colon. -/
theorem matchNameColon_spec {text name rest : List Char}
    (h : matchNameColon text = some (name, rest)) :
    name ≠ [] ∧ (∀ c ∈ name, isWordChar c = true) ∧ rest.length < text.length := by
  unfold matchNameColon at h
  split at h
  · rename_i rest' hd
    split_ifs at h with hn
    obtain ⟨rfl, rfl⟩ := Prod.mk.inj (Option.some.inj h)
    have hsuf : ((text.dropWhile isWordChar).dropWhile isSpace).length ≤ text.length :=
      ((List.dropWhile_suffix _).trans (List.dropWhile_suffix _)).length_le
    rw [hd, List.length_cons] at hsuf
    exact ⟨hn, fun _ hc => List.mem_takeWhile_imp hc, hsuf⟩
  · cases h

/-- What one search of `parse_rules` finds: a name of word characters, and a shorter text to search
next. -/
theorem searchRule_spec : ∀ {text name body suffix : List Char},
    searchRule text = some (name, body, suffix) →
      name ≠ [] ∧ (∀ c ∈ name, isWordChar c = true) ∧ suffix.length < text.length
  | [], _, _, _, h => by cases h
  | c :: cs, name, body, suffix, h => by
    unfold searchRule at h
    cases hm : matchRuleAt (c :: cs) with
    | none =>
      rw [hm] at h
      obtain ⟨hn, hw, hl⟩ := searchRule_spec h
      exact ⟨hn, hw, by simp only [List.length_cons]; omega⟩
    | some r =>
      rw [hm] at h
      cases h
      obtain ⟨⟨n, rest⟩, hnc, hr⟩ := Option.bind_eq_some.mp hm
      obtain ⟨hn, hw, hl⟩ := matchNameColon_spec hnc
      dsimp only at hr
      split_ifs at hr
      cases hr
      refine ⟨hn, hw, Nat.lt_of_le_of_lt ?_ hl⟩
      calc _ ≤ ((rest.dropWhile isSpace).dropWhile (· ≠ ';')).length := by
            rw [List.length_tail]; exact Nat.sub_le _ _
        _ ≤ (rest.dropWhile isSpace).length := (List.dropWhile_suffix _).length_le
        _ ≤ rest.length := (List.dropWhile_suffix _).length_le

/-- The rules the loop of `parse_rules` finds, in order: the name and the body of each match. -/
def scanRules : Nat → List Char → List (List Char × List Char)
  | 0, _ => []
  | fuel + 1, text =>
    match searchRule text with
    | none => []
    | some (name, body, suffix) => (name, body) :: scanRules fuel suffix

/-- The loop of `parse_rules` handles the rules it finds one after the other. -/
theorem parseRulesLoop_eq_foldl : ∀ (fuel : Nat) (st : G4State) (text : List Char),
    parseRulesLoop fuel st text = (scanRules fuel text).foldl parseRule st
  | 0, _, _ => rfl
  | fuel + 1, st, text => by
    cases h : searchRule text with
    | none => simp [parseRulesLoop, scanRules, h]
    | some r => simp [parseRulesLoop, scanRules, h, parseRulesLoop_eq_foldl fuel]

theorem scanRules_name : ∀ {fuel : Nat} {text : List Char} {r : List Char × List Char},
    r ∈ scanRules fuel text → r.1 ≠ [] ∧ ∀ c ∈ r.1, isWordChar c = true
  | 0, _, _, h => absurd h (List.not_mem_nil _)
  | fuel + 1, text, r, h => by
    unfold scanRules at h
    split at h
    · exact absurd h (List.not_mem_nil _)
    · rename_i hs
      rcases List.mem_cons.mp h with rfl | h
      · exact ⟨(searchRule_spec hs).1, (searchRule_spec hs).2.1⟩
      · exact scanRules_name h

/-- Enough fuel: the loop of `parse_rules` stops before `text.length` iterations. -/
theorem scanRules_succ : ∀ {fuel : Nat} {text : List Char}, text.length ≤ fuel →
    scanRules (fuel + 1) text = scanRules fuel text
  | 0, text, h => by
    rw [List.length_eq_zero.mp (Nat.le_zero.mp h)]
    rfl
  | fuel + 1, text, h => by
    unfold scanRules
    split
    · rfl
    · rename_i hs
      rw [scanRules_succ (by have := (searchRule_spec hs).2.2; omega)]

theorem scanRules_of_le {fuel : Nat} {text : List Char} (h : text.length ≤ fuel) :
    scanRules fuel text = scanRules text.length text := by
  induction fuel, h using Nat.le_induction with
  | base => rfl
  | succ n hn ih => rw [scanRules_succ hn, ih]

/-- A lexer rule's name starts with a capital letter, and `fragment` does not. -/
theorem isPrefixOf_fragment {name : List Char} (h : isLexerRuleName name = true) :
    "fragment".toList.isPrefixOf name = false := by
  cases name with
  | nil => cases h
  | cons c cs =>
    have hc : c ≠ 'f' := by rintro rfl; exact absurd (show Char.isUpper 'f' = true from h) (by decide)
    simp [List.isPrefixOf, hc.symm]

/-- `parse_rules` hands `name : body` on, and the rule's regular expression reads back the name and
the normalised body; so the rule is recorded, and no format error is logged. -/
theorem parseRule_eq (st : G4State) {name : List Char} (body : List Char) (hn : name ≠ [])
    (hw : ∀ c ∈ name, isWordChar c = true) :
    parseRule st (name, body) =
      let b := (normalizeWhitespace (normalizeWhitespace body)).dropWhile isSpace
      if isLexerRuleName name then
        { st with lexerRules := st.lexerRules ++ [⟨name, normalizeWhitespace b,
          "fragment".toList.isPrefixOf name, containsText "-> skip".toList (normalizeWhitespace b)⟩] }
      else { st with parserRules := st.parserRules ++ [⟨name, splitAlternatives b, false⟩] } := by
  have hm : matchRuleText (name ++ " : ".toList ++ normalizeWhitespace (normalizeWhitespace body)) =
      some (name, (normalizeWhitespace (normalizeWhitespace body)).dropWhile isSpace) := by
    have hlt : ((normalizeWhitespace (normalizeWhitespace body)).dropWhile isSpace).any
        isLineTerminator = false := List.any_eq_false.mpr fun c hc =>
      by simpa using isLineTerminator_of_mem_normalizeWhitespace ((List.dropWhile_suffix _).subset hc)
    simp only [matchRuleText, List.append_assoc, show " : ".toList = [' ', ':', ' '] from rfl,
      List.cons_append, List.nil_append, matchNameColon_append hn hw, Option.some_bind]
    rw [List.dropWhile_cons, if_pos (show isSpace ' ' = true from rfl), hlt]
    rfl
  unfold parseRule parseParserRule parseLexerRule
  simp only [hm]

/-- Run lemma over the rules `parse_rules` finds: no error is logged, and every lexer rule recorded
is not a fragment. -/
theorem foldl_parseRule : ∀ (rs : List (List Char × List Char)) (st : G4State),
    (∀ r ∈ rs, r.1 ≠ [] ∧ ∀ c ∈ r.1, isWordChar c = true) →
    (rs.foldl parseRule st).errors = st.errors ∧
      ∀ t ∈ (rs.foldl parseRule st).lexerRules, t ∈ st.lexerRules ∨ t.isFragment = false
  | [], _, _ => ⟨rfl, fun _ ht => .inl ht⟩
  | (n, b) :: rs, st, h => by
    obtain ⟨hn, hw⟩ := h (n, b) (List.mem_cons_self _ _)
    have hstep : (parseRule st (n, b)).errors = st.errors ∧
        ∀ t ∈ (parseRule st (n, b)).lexerRules, t ∈ st.lexerRules ∨ t.isFragment = false := by
      rw [parseRule_eq st b hn hw]
      split
      · rename_i hlex
        refine ⟨rfl, fun t ht => ?_⟩
        rcases List.mem_append.mp ht with ht | ht
        · exact .inl ht
        · exact .inr (List.mem_singleton.mp ht ▸ isPrefixOf_fragment hlex)
      · exact ⟨rfl, fun _ ht => .inl ht⟩
    obtain ⟨he, hl⟩ := foldl_parseRule rs _ fun r hr => h r (List.mem_cons_of_mem _ hr)
    refine ⟨he.trans hstep.1, fun t ht => ?_⟩
    rcases hl t ht with ht | ht
    · exact hstep.2 t ht
    · exact .inr ht

/-- `parse_string` logs an error exactly when the text without comments has no grammar declaration,
and then returns `nullptr`; otherwise it returns `convert_to_grammar` of the rules it recorded.
No lexer rule it records is a fragment. -/
theorem parseString_spec (st : G4State) (content : List Char) :
    (parseString st content).1.errors =
        (if (searchGrammar (removeComments content)).isSome then [] else ["No grammar declaration found"]) ∧
      (∀ t ∈ (parseString st content).1.lexerRules, t.isFragment = false) ∧
      (parseString st content).2 = if (searchGrammar (removeComments content)).isSome then
        some (convertToGrammar (parseString st content).1.parserRules (parseString st content).1.lexerRules)
      else none := by
  have hd : ∀ st : G4State, st.errors = [] → st.lexerRules = [] →
      (parseGrammarDeclaration st (removeComments content)).errors =
        (if (searchGrammar (removeComments content)).isSome then [] else ["No grammar declaration found"]) ∧
      (parseGrammarDeclaration st (removeComments content)).lexerRules = [] := by
    intro st he hl
    unfold parseGrammarDeclaration
    cases searchGrammar (removeComments content) <;> simp [addError, he, hl]
  obtain ⟨hde, hdl⟩ := hd { st with errors := [], parserRules := [], lexerRules := [] } rfl rfl
  obtain ⟨he, hl⟩ := foldl_parseRule (scanRules (removeComments content).length (removeComments content))
    _ fun r hr => scanRules_name hr
  simp only [parseString, parseRules, parseRulesLoop_eq_foldl]
  generalize List.foldl parseRule _ _ = S at he hl ⊢
  rw [hde] at he
  cases hg : (searchGrammar (removeComments content)).isSome <;> simp_all

/-! ## Reading back a written grammar -/

/-- A rule as a `.g4` file writes it: `name : body;` and a line break. -/
def printRule (rule : List Char × List Char) : List Char := rule.1 ++ " : ".toList ++ rule.2 ++ ";\n".toList

/-- Rules written one after the other. -/
def printRules (rules : List (List Char × List Char)) : List Char := rules.flatMap printRule

/-- A rule that `parse_rules` reads back as written: a name of word characters, and a body without
`;` that neither starts nor ends with white space. -/
def ReadableRule (rule : List Char × List Char) : Prop :=
  rule.1 ≠ [] ∧ (∀ c ∈ rule.1, isWordChar c = true) ∧ ';' ∉ rule.2 ∧
    (∀ c ∈ rule.2.head?, isSpace c = false) ∧ ∀ c ∈ rule.2.getLast?, isSpace c = false

instance : DecidablePred ReadableRule := fun _ => inferInstanceAs (Decidable (_ ∧ _ ∧ _ ∧ _ ∧ _))

/-- No match starts at a character that is not a word character. -/
theorem searchRule_cons_of_not_wordChar {c : Char} (hc : isWordChar c = false) (cs : List Char) :
    searchRule (c :: cs) = searchRule cs := by
  have : matchNameColon (c :: cs) = none := by
    unfold matchNameColon
    split <;> simp [List.takeWhile_cons, hc]
  simp [searchRule, matchRuleAt, this]

theorem scanRules_cons_of_not_wordChar {c : Char} (hc : isWordChar c = false) :
    ∀ (fuel : Nat) (cs : List Char), scanRules fuel (c :: cs) = scanRules fuel cs
  | 0, _ => rfl
  | _ + 1, cs => by rw [scanRules, scanRules, searchRule_cons_of_not_wordChar hc]

/-- A match at the start is the leftmost one. -/
theorem searchRule_of_matchRuleAt {text : List Char} {m : List Char × List Char × List Char}
    (h : matchRuleAt text = some m) : searchRule text = some m := by
  cases text with
  | nil => cases h
  | cons c cs => simp [searchRule, h]

/-- The body and the text after the `;` of a written rule. -/
theorem matchRuleAt_printRule {rule : List Char × List Char} (hr : ReadableRule rule) (rest : List Char) :
    matchRuleAt (printRule rule ++ rest) = some (rule.1, rule.2, '\n' :: rest) := by
  obtain ⟨hn, hw, hsemi, hhead, hlast⟩ := hr
  have hsp : (' ' :: (rule.2 ++ ';' :: '\n' :: rest)).dropWhile isSpace = rule.2 ++ ';' :: '\n' :: rest := by
    cases hb : rule.2 with
    | nil => rfl
    | cons c cs =>
      have hc : isSpace c = false := hhead c (by simp [hb])
      simp [List.dropWhile_cons, hc, show isSpace ' ' = true from rfl]
  have hne : ∀ c ∈ rule.2, decide (c ≠ ';') = true := fun c hc =>
    decide_eq_true fun h => hsemi (h ▸ hc)
  have hbody : lazyBody (rule.2 ++ ';' :: '\n' :: rest) = rule.2 := by
    unfold lazyBody
    rw [List.takeWhile_append_of_pos hne, show (';' :: '\n' :: rest).takeWhile (· ≠ ';') = [] from rfl,
      List.append_nil]
    cases hb : rule.2.reverse with
    | nil => simp_all
    | cons c cs =>
      have hc : isSpace c = false := hlast c (by simp [← List.head?_reverse, hb])
      rw [List.dropWhile_cons, if_neg (by simp [hc]), ← hb, List.reverse_reverse]
  have hsuffix : (rule.2 ++ ';' :: '\n' :: rest).dropWhile (· ≠ ';') = ';' :: '\n' :: rest := by
    rw [List.dropWhile_append_of_pos hne]
    rfl
  have hcolon : printRule rule ++ rest = rule.1 ++ ' ' :: ':' :: (' ' :: (rule.2 ++ ';' :: '\n' :: rest)) := by
    simp [printRule]
  rw [hcolon, matchRuleAt, matchNameColon_append hn hw, Option.some_bind]
  dsimp only
  rw [hsp, if_pos (List.mem_append_right _ (List.mem_cons_self _ _)), hbody, hsuffix]
  rfl

/-- The loop of `parse_rules` finds the rules of a written text, in order. -/
theorem scanRules_printRules : ∀ {rules : List (List Char × List Char)}, (∀ r ∈ rules, ReadableRule r) →
    scanRules (printRules rules).length (printRules rules) = rules
  | [], _ => by simp [printRules, scanRules]
  | r :: rs, h => by
    have hsearch := searchRule_of_matchRuleAt (matchRuleAt_printRule (h r (List.mem_cons_self _ _))
      (printRules rs))
    have hsplit : printRules (r :: rs) = printRule r ++ printRules rs := List.flatMap_cons ..
    obtain ⟨m, hm, hle⟩ : ∃ m, (printRules (r :: rs)).length = m + 1 ∧ (printRules rs).length ≤ m :=
      ⟨(printRules (r :: rs)).length - 1, by simp [hsplit, printRule]; omega,
        by simp [hsplit, printRule]; omega⟩
    rw [hm, scanRules, hsplit, hsearch]
    dsimp only
    rw [scanRules_cons_of_not_wordChar, scanRules_of_le hle,
      scanRules_printRules fun r' hr' => h r' (List.mem_cons_of_mem _ hr')]
    rfl

/-! ## Comments -/

/-- The text before a match of `std::regex_replace` with a pattern that starts with `/` is kept as it
is when it holds no `/`. -/
theorem eraseMatches_append_of_no_slash {m : List Char → Option Nat}
    (hm : ∀ c cs, c ≠ '/' → m (c :: cs) = none) :
    ∀ (pre text : List Char), '/' ∉ pre →
      eraseMatches m (pre ++ text).length (pre ++ text) = pre ++ eraseMatches m text.length text
  | [], _, _ => rfl
  | c :: pre, text, h => by
    have hc : c ≠ '/' := fun hc => h (hc ▸ List.mem_cons_self _ _)
    rw [List.cons_append, List.length_cons, eraseMatches, hm c _ hc]
    dsimp only
    rw [eraseMatches_append_of_no_slash hm pre text fun hp => h (List.mem_cons_of_mem _ hp)]
    rfl

theorem lineCommentAt_of_ne {c : Char} (hc : c ≠ '/') (cs : List Char) : lineCommentAt (c :: cs) = none := by
  unfold lineCommentAt
  split <;> simp_all

theorem blockCommentAt_of_ne {c : Char} (hc : c ≠ '/') (cs : List Char) : blockCommentAt (c :: cs) = none := by
  unfold blockCommentAt
  split <;> simp_all

theorem docCommentAt_of_ne {c : Char} (hc : c ≠ '/') (cs : List Char) : docCommentAt (c :: cs) = none := by
  unfold docCommentAt
  split <;> simp_all

/-- `remove_comments` keeps a text without `/`. -/
theorem removeComments_of_no_slash {content : List Char} (h : '/' ∉ content) :
    removeComments content = content := by
  have hkeep : ∀ {m : List Char → Option Nat}, (∀ c cs, c ≠ '/' → m (c :: cs) = none) →
      eraseMatches m content.length content = content := fun hm => by
    have := eraseMatches_append_of_no_slash hm content [] h
    simp only [List.append_nil] at this
    exact this.trans (List.append_nil content)
  simp only [removeComments, hkeep (fun c cs hc => lineCommentAt_of_ne hc cs),
    hkeep (fun c cs hc => blockCommentAt_of_ne hc cs), hkeep (fun c cs hc => docCommentAt_of_ne hc cs)]

/-- `//.*?$` matches only to the end of the text, and `.` stops at a line break: a line that a line
break ends keeps its `//` comment. So `remove_comments` removes a `//` comment only on the last
line. -/
theorem eraseLineComments_append_newline :
    ∀ (line rest : List Char),
      eraseMatches lineCommentAt (line ++ '\n' :: rest).length (line ++ '\n' :: rest) =
        line ++ '\n' :: eraseMatches lineCommentAt rest.length rest
  | [], rest => by
    rw [List.nil_append, List.length_cons, eraseMatches, lineCommentAt_of_ne (by decide)]
    rfl
  | c :: line, rest => by
    have hnone : lineCommentAt (c :: (line ++ '\n' :: rest)) = none := by
      unfold lineCommentAt
      split
      · rename_i tail heq
        have : '\n' ∈ tail := by
          have h := List.mem_append_right line (List.mem_cons_self '\n' rest)
          rw [List.cons.inj heq |>.2] at h
          simpa using h
        rw [if_pos (List.any_eq_true.mpr ⟨'\n', this, rfl⟩)]
      · rfl
    rw [List.cons_append, List.length_cons, eraseMatches, hnone]
    dsimp only
    rw [eraseLineComments_append_newline line rest]
    rfl

/-- `.*?\*/` stops at a line break before a `*/`. -/
theorem blockEnd_append_newline : ∀ (body rest : List Char), '/' ∉ body →
    blockEnd (body ++ '\n' :: rest) = none
  | [], _, _ => rfl
  | c :: body, rest, h => by
    have ih := blockEnd_append_newline body rest fun hm => h (List.mem_cons_of_mem _ hm)
    have hne : ∀ tail, body ++ '\n' :: rest ≠ '/' :: tail := by
      intro tail heq
      cases body with
      | nil => cases heq
      | cons d _ => exact h ((List.cons.inj heq).1 ▸ List.mem_cons_of_mem _ (List.mem_cons_self _ _))
    rw [List.cons_append]
    generalize body ++ '\n' :: rest = t at ih hne
    unfold blockEnd
    split
    · rename_i tail heq
      exact absurd (List.cons.inj heq).2 (hne tail)
    · rename_i heq
      obtain ⟨rfl, rfl⟩ := List.cons.inj heq
      split_ifs
      · rfl
      · rw [ih]; rfl
    · rename_i heq
      cases heq

/-- `/\*.*?\*/` with `.` stopping at a line break: a block comment that a line break interrupts
stays in the text. -/
theorem eraseBlockComments_keeps_open {body : List Char} (rest : List Char) (hb : '/' ∉ body) :
    eraseMatches blockCommentAt ('/' :: '*' :: (body ++ '\n' :: rest)).length
        ('/' :: '*' :: (body ++ '\n' :: rest)) =
      '/' :: '*' :: (body ++ '\n' :: eraseMatches blockCommentAt rest.length rest) := by
  rw [List.length_cons, eraseMatches, blockCommentAt, blockEnd_append_newline body rest hb]
  dsimp only [Option.map_none']
  have := eraseMatches_append_of_no_slash (fun c cs hc => blockCommentAt_of_ne hc cs)
    ('*' :: (body ++ ['\n'])) rest (by simpa using hb)
  simpa using this

theorem eraseBlockComments_keeps_open_rule :
    '/' ∉ " old : x;".toList ∧
      eraseMatches blockCommentAt ('/' :: '*' :: (" old : x;".toList ++ '\n' :: "*/".toList)).length
          ('/' :: '*' :: (" old : x;".toList ++ '\n' :: "*/".toList)) =
        '/' :: '*' :: (" old : x;".toList ++ '\n' :: eraseMatches blockCommentAt "*/".toList.length "*/".toList) :=
  ⟨by decide, eraseBlockComments_keeps_open _ (by decide)⟩

theorem isWordChar_of_isSpace {c : Char} (h : isSpace c = true) : isWordChar c = false := by
  simp only [isSpace, Bool.or_eq_true, decide_eq_true_eq] at h
  rcases h with ((((rfl | rfl) | rfl) | rfl) | rfl) | rfl <;> rfl

/-- No match starts inside a word that blanks and a colon do not follow. -/
theorem searchRule_word_append : ∀ {w rest : List Char}, (∀ c ∈ w, isWordChar c = true) →
    (∀ c ∈ rest.head?, isWordChar c = false) → (rest.dropWhile isSpace).head? ≠ some ':' →
    searchRule (w ++ rest) = searchRule rest
  | [], _, _, _, _ => rfl
  | c :: w, rest, hw, hr, hcolon => by
    have hd : (c :: w ++ rest).dropWhile isWordChar = rest := by
      rw [List.dropWhile_append_of_pos hw]
      cases rest with
      | nil => rfl
      | cons d ds => simp [List.dropWhile_cons, hr d rfl]
    have hm : matchNameColon (c :: w ++ rest) = none := by
      unfold matchNameColon
      rw [hd]
      split
      · rename_i r heq
        exact absurd (by rw [heq]; rfl) hcolon
      · rfl
    rw [List.cons_append, searchRule, matchRuleAt, ← List.cons_append, hm]
    exact searchRule_word_append (fun x hx => hw x (List.mem_cons_of_mem _ hx)) hr hcolon

theorem isSpace_of_isWordChar {c : Char} (h : isWordChar c = true) : isSpace c = false :=
  Bool.eq_false_iff.mpr fun hs => by simp [isWordChar_of_isSpace hs] at h

/-- What `grammar name;` looks like to the regular expressions: `name` and `;` after one blank. -/
theorem printGrammar_eq (name rest : List Char) :
    "grammar ".toList ++ name ++ ";\n".toList ++ rest =
      'g' :: 'r' :: 'a' :: 'm' :: 'm' :: 'a' :: 'r' :: ' ' :: (name ++ ';' :: '\n' :: rest) := by
  simp

/-- `grammar name;` declares the grammar `name`. -/
theorem searchGrammar_printGrammar {name : List Char} (hn : name ≠ [])
    (hw : ∀ c ∈ name, isWordChar c = true) (rest : List Char) :
    searchGrammar ("grammar ".toList ++ name ++ ";\n".toList ++ rest) = some name := by
  have hsp : (name ++ ';' :: '\n' :: rest).dropWhile isSpace = name ++ ';' :: '\n' :: rest := by
    obtain ⟨c, cs, rfl⟩ := List.exists_cons_of_ne_nil hn
    rw [List.cons_append, List.dropWhile_cons, if_neg (by simp [isSpace_of_isWordChar (hw c (List.mem_cons_self _ _))])]
  have htake : (name ++ ';' :: '\n' :: rest).takeWhile isWordChar = name := by
    rw [List.takeWhile_append_of_pos hw]
    exact List.append_nil name
  have hdrop : (name ++ ';' :: '\n' :: rest).dropWhile isWordChar = ';' :: '\n' :: rest := by
    rw [List.dropWhile_append_of_pos hw]
    rfl
  have hm : matchGrammarAt ("grammar ".toList ++ name ++ ";\n".toList ++ rest) = some name := by
    rw [printGrammar_eq]
    simp [matchGrammarAt, List.isPrefixOf, hsp, htake, hdrop, hn, show isSpace ' ' = true from rfl]
    rfl
  rw [printGrammar_eq, searchGrammar, ← printGrammar_eq, hm]
  rfl

/-- The declaration `grammar name;` holds no rule. -/
theorem searchRule_printGrammar {name : List Char} (hn : name ≠ [])
    (hw : ∀ c ∈ name, isWordChar c = true) (rest : List Char) :
    searchRule ("grammar ".toList ++ name ++ ";\n".toList ++ rest) = searchRule rest := by
  obtain ⟨c, cs, rfl⟩ := List.exists_cons_of_ne_nil hn
  have hc := hw c (List.mem_cons_self _ _)
  have hnot : ∀ {d : Char} {t : List Char}, isWordChar d = false → ∀ x ∈ (d :: t).head?, isWordChar x = false :=
    fun hd x hx => Option.some.inj hx ▸ hd
  have hblank : isWordChar ' ' = false := rfl
  have hsemi : isWordChar ';' = false := rfl
  have hnl : isWordChar '\n' = false := rfl
  rw [printGrammar_eq, show 'g' :: 'r' :: 'a' :: 'm' :: 'm' :: 'a' :: 'r' :: ' ' :: (c :: cs ++ ';' :: '\n' :: rest) =
      "grammar".toList ++ ' ' :: (c :: cs ++ ';' :: '\n' :: rest) from rfl,
    searchRule_word_append (by decide) (hnot hblank), searchRule_cons_of_not_wordChar hblank,
    searchRule_word_append hw (hnot hsemi) (by simp [List.dropWhile_cons, show isSpace ';' = false from rfl]),
    searchRule_cons_of_not_wordChar hsemi, searchRule_cons_of_not_wordChar hnl]
  simp [List.dropWhile_cons, isSpace_of_isWordChar hc, show isSpace ' ' = true from rfl]
  rintro rfl
  exact absurd hc (by decide)

/-- `parse_string` reads a written grammar back: on `grammar name;` and written rules without `/`,
it logs no error, records the grammar's name and the rules, in order, and returns the grammar
`convert_to_grammar` builds from them. -/
theorem parseString_printGrammar (st : G4State) {name : List Char} (hn : name ≠ [])
    (hw : ∀ c ∈ name, isWordChar c = true) {rules : List (List Char × List Char)}
    (hr : ∀ r ∈ rules, ReadableRule r) (hslash : ∀ r ∈ rules, '/' ∉ r.2) :
    parseString st ("grammar ".toList ++ name ++ ";\n".toList ++ printRules rules) =
      let st' := rules.foldl parseRule ⟨[], name, [], []⟩
      (st', some (convertToGrammar st'.parserRules st'.lexerRules)) := by
  have hslashRule : ∀ r ∈ rules, '/' ∉ printRule r := fun r hr' h => by
    simp only [printRule, List.mem_append] at h
    rcases h with ((h | h) | h) | h
    · exact absurd ((hr r hr').2.1 _ h) (by decide)
    · exact absurd h (by decide)
    · exact hslash r hr' h
    · exact absurd h (by decide)
  have hno : '/' ∉ "grammar ".toList ++ name ++ ";\n".toList ++ printRules rules := by
    simp only [List.mem_append, printRules, List.mem_flatMap, not_or]
    exact ⟨⟨⟨by decide, fun h => absurd (hw _ h) (by decide)⟩, by decide⟩,
      fun ⟨r, hr', h⟩ => hslashRule r hr' h⟩
  have hscan : scanRules ("grammar ".toList ++ name ++ ";\n".toList ++ printRules rules).length
      ("grammar ".toList ++ name ++ ";\n".toList ++ printRules rules) = rules := by
    obtain ⟨m, hm, hle⟩ : ∃ m, ("grammar ".toList ++ name ++ ";\n".toList ++ printRules rules).length =
        m + 1 ∧ (printRules rules).length ≤ m + 1 :=
      ⟨("grammar ".toList ++ name ++ ";\n".toList ++ printRules rules).length - 1, by simp,
        by simp; omega⟩
    have hstep : scanRules (m + 1) ("grammar ".toList ++ name ++ ";\n".toList ++ printRules rules) =
        scanRules (m + 1) (printRules rules) := by
      rw [scanRules, scanRules, searchRule_printGrammar hn hw]
    rw [hm, hstep, scanRules_of_le hle, scanRules_printRules hr]
  have hdecl : parseGrammarDeclaration { st with errors := [], parserRules := [], lexerRules := [] }
      ("grammar ".toList ++ name ++ ";\n".toList ++ printRules rules) = ⟨[], name, [], []⟩ := by
    rw [parseGrammarDeclaration, searchGrammar_printGrammar hn hw]
  have herr := (foldl_parseRule rules ⟨[], name, [], []⟩ fun r h => ⟨(hr r h).1, (hr r h).2.1⟩).1
  simp only [parseString, removeComments_of_no_slash hno, parseRules, parseRulesLoop_eq_foldl, hscan,
    hdecl]
  rw [if_pos herr]

/-- The rules of a small expression grammar. -/
def exprRules : List (List Char × List Char) :=
  [("expr".toList, "expr '+' term | term".toList), ("term".toList, "NUM".toList)]

theorem parseString_printGrammar_expr :
    ("Expr".toList ≠ [] ∧ (∀ c ∈ "Expr".toList, isWordChar c = true) ∧
      (∀ r ∈ exprRules, ReadableRule r) ∧ ∀ r ∈ exprRules, '/' ∉ r.2) ∧
    parseString ⟨[], [], [], []⟩ ("grammar ".toList ++ "Expr".toList ++ ";\n".toList ++ printRules exprRules) =
      let st' := exprRules.foldl parseRule ⟨[], "Expr".toList, [], []⟩
      (st', some (convertToGrammar st'.parserRules st'.lexerRules)) :=
  ⟨⟨by decide, by decide, by decide, by decide⟩,
    parseString_printGrammar _ (by decide) (by decide) (by decide) (by decide)⟩

/-! ## The grammars `parse_string` returns -/

/-- `augment` adds a nonterminal only, so the terminals stay as they were. -/
theorem augment_getTerminals (g : Grammar) :
    g.augment.symbolTable.getTerminals = g.symbolTable.getTerminals := by
  cases ha : g.isAugmented
  · cases hs : g.startSymbol with
    | none => rw [Grammar.augment_of_startSymbol_eq_none hs]
    | some s => rw [Grammar.augment_symbolTable ha hs, SymbolTable.getTerminals_getNonterminal]
  · rw [Grammar.augment_of_isAugmented ha]

theorem parseString_converted {st : G4State} {content : List Char} {g : Grammar}
    (h : (parseString st content).2 = some g) :
    Converted g ∧ g.productions = (parseString st content).1.parserRules.flatMap ruleProductions ∧
      g.startSymbol = (parseString st content).1.parserRules.head?.map
        fun r => .nonterminal (String.mk r.name) := by
  rw [(parseString_spec st content).2.2] at h
  split at h
  · cases h
    exact convertToGrammar_spec _ _
  · cases h

/-- `parse_string` returns `nullptr` exactly when the text without comments has no grammar
declaration: the format errors of `parse_parser_rule` and `parse_lexer_rule` never happen. -/
theorem parseString_eq_none_iff (st : G4State) (content : List Char) :
    (parseString st content).2 = none ↔ searchGrammar (removeComments content) = none := by
  rw [(parseString_spec st content).2.2]
  cases searchGrammar (removeComments content) <;> simp

/-- No lexer rule `parse_string` records is a fragment: `is_fragment` asks for a name that starts
with `fragment`, and a lexer rule's name is capitalised. -/
theorem parseString_not_fragment (st : G4State) (content : List Char) :
    ∀ t ∈ (parseString st content).1.lexerRules, t.isFragment = false :=
  (parseString_spec st content).2.1

/-- An ANTLR `fragment` rule: the search for `name :` skips the keyword and records `DIGIT`. -/
theorem parseString_not_fragment_keyword :
    ∃ t ∈ (parseString ⟨[], [], [], []⟩ "grammar G;\nfragment DIGIT : [0-9];\n".toList).1.lexerRules,
      t.isFragment = false :=
  have hne : (parseString ⟨[], [], [], []⟩ "grammar G;\nfragment DIGIT : [0-9];\n".toList).1.lexerRules ≠ [] := by
    decide
  ⟨_, List.head_mem hne, parseString_not_fragment _ _ _ (List.head_mem hne)⟩

/-- Every grammar `parse_string` returns is built through the `Grammar` API, has one production for
every alternative `expand_ebnf` gives of every parser rule it recorded, in order, starts at the
first parser rule, and gives all its terminals the token type `IDENTIFIER`. -/
theorem parseString_grammar {st : G4State} {content : List Char} {g : Grammar}
    (h : (parseString st content).2 = some g) :
    g.Built ∧ g.productions = (parseString st content).1.parserRules.flatMap ruleProductions ∧
      g.startSymbol = (parseString st content).1.parserRules.head?.map
        (fun r => .nonterminal (String.mk r.name)) ∧
      ∀ x ∈ g.symbolTable.getTerminals, x.tokenType = .identifier := by
  obtain ⟨hc, hp, hs⟩ := parseString_converted h
  exact ⟨hc.built, hp, hs, fun x hx => hc.terminal x (List.mem_filter.mp hx).1 (List.mem_filter.mp hx).2⟩

/-- The parser `create_lalr1_parser` builds from a grammar of `parse_string` reads the end of input
as `$`, every other token of type `IDENTIFIER` as the first terminal of the grammar's table, and
any other token as unknown: no two terminals of such a grammar can be told apart. -/
theorem terminalFor_parseString {st : G4State} {content : List Char} {g : Grammar}
    (h : (parseString st content).2 = some g) (tok : Token) :
    LALR1Parser.terminalFor g.augment tok = if tok.isEof then some endOfInputSymbol
      else if tok.type = .identifier then g.symbolTable.getTerminals.head? else none := by
  rw [(parseString_converted h).1.augment.terminalFor_eq, augment_getTerminals]

/-- A small `.g4` text with a parser rule that has two alternatives. -/
def exprG4 : List Char := "grammar Expr;\nexpr : expr '+' term | term;\nterm : NUM;\n".toList

theorem parseString_grammar_expr :
    ∃ g, (parseString ⟨[], [], [], []⟩ exprG4).2 = some g ∧
      g.Built ∧ g.productions = (parseString ⟨[], [], [], []⟩ exprG4).1.parserRules.flatMap ruleProductions ∧
      g.startSymbol = (parseString ⟨[], [], [], []⟩ exprG4).1.parserRules.head?.map
        (fun r => .nonterminal (String.mk r.name)) ∧
      ∀ x ∈ g.symbolTable.getTerminals, x.tokenType = .identifier := by
  have hs : (parseString ⟨[], [], [], []⟩ exprG4).2.isSome = true := by decide
  exact ⟨_, (Option.some_get hs).symm, parseString_grammar (Option.some_get hs).symm⟩

theorem terminalFor_parseString_expr :
    ∃ g, (parseString ⟨[], [], [], []⟩ exprG4).2 = some g ∧ ∀ tok : Token,
      LALR1Parser.terminalFor g.augment tok = if tok.isEof then some endOfInputSymbol
        else if tok.type = .identifier then g.symbolTable.getTerminals.head? else none := by
  have hs : (parseString ⟨[], [], [], []⟩ exprG4).2.isSome = true := by decide
  exact ⟨_, (Option.some_get hs).symm, terminalFor_parseString (Option.some_get hs).symm⟩

end G4Parser

end Lalr1
