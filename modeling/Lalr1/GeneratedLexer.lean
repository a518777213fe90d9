import Lalr1.Regex
import Lalr1.GeneratedDriver
import Lalr1.G4Frontend

/-!
# The generated lexer

`CppCodeGenerator::generate_lexer_source` (`cpp_codegen.cpp`) writes the lexer class of the
generated parser. Its constructor runs `initialize_rules`: a skipped rule `\s+` first, then one
rule for each terminal other than `$`, in `get_terminals()` order, whose pattern the generator
picks by the terminal's token name: `\d+` for `NUM`, `NUMBER` and `INT`, an identifier for `ID`
and `IDENTIFIER`, a string literal for `STRING`, and otherwise the terminal's name with the regex
syntax characters escaped. `tokenize` runs the rules over an input: at each position the first
rule whose `std::regex_search` match starts there wins; its text becomes a token unless the rule
is skipped, and the line and column move over it; where no rule matches, `error` logs the
character and the loop moves one column on. An EOF token ends the list.

A literal's pattern goes through three readers: the generator's escaping loop (`escapeLiteral`,
which doubles the backslashes it wrote, since `\` comes last in `special_chars`), the C++ compiler
reading the plain string literal back (`readCppString`), and `std::regex` (`Regex.parse`; the
string pattern, outside that fragment, by its own matcher `stringMatch`). For names without `\`,
`"` or line breaks the rules are the ones meant (`initializeRules_eq`), and a literal's rule
matches exactly where the input starts with the name (`terminalPattern_literal`).

What `tokenize` returns: given rules that never match the empty string and a rule for every
newline, after at most one iteration per character, tokens each of which is the match of the
first rule matching at its position, with that position's line and column, in input order
without overlap, the EOF token at the end of the input, and one error per character no rule
matches (`tokenize_spec`). The rules of a grammar whose terminal names are plain meet both
conditions (`generated_tokenize_spec`).

Two consequences are bugs. The pattern depends on the token name only, so a keyword `'int'`
gets the rule `\d+`, and every `INT` token is a run of digits, never the keyword
(`int_tokens_are_digits`). The first matching rule wins, not the longest match, so a terminal
whose every match an earlier terminal's rule also matches never becomes a token: with `'='`
before `'=='`, `==` is read as two `=` (`shadowed_terminal_never_lexed`). A terminal with the
empty name gets an unnamed enumerator, and its generated source does not compile; plain names
are non-empty. Verbose printing, and the rule's name, which only that printing reads, are left
out.
-/

namespace Lalr1

open G4Parser

namespace CppCodeGenerator

/-- `special_chars` of `generate_lexer_source`, in the order of its loop. -/
def specialChars : List Char :=
  ['.', '*', '+', '?', '^', '$', '\x7b', '\x7d', '(', ')', '|', '[', ']', '\\']

/-- One pass of the escaping loop for `c`: every `c` becomes `\c`. The search resumes after the
inserted pair, so each `c` of the text is escaped once. -/
def escapeChar (c : Char) (s : List Char) : List Char :=
  s.flatMap fun x => if x = c then ['\\', c] else [x]

/-- The escaped name of a literal terminal: the passes of `special_chars` in order. The pass of
`\` comes last and doubles the backslashes the earlier passes inserted too. -/
def escapeLiteral (name : List Char) : List Char :=
  specialChars.foldl (fun s c => escapeChar c s) name

/-- The pattern `initialize_rules` writes for a terminal, chosen by its token name, and whether it
is written as a raw string literal (`true`) or a plain one. -/
def rulePattern (name : String) : String × Bool :=
  let tokenName := toTokenName name
  if tokenName = "NUM" || tokenName = "NUMBER" || tokenName = "INT" then ("\\d+", true)
  else if tokenName = "ID" || tokenName = "IDENTIFIER" then ("[a-zA-Z_][a-zA-Z0-9_]*", true)
  else if tokenName = "STRING" then ("\"([^\"\\\\]|\\\\.)*\"", true)
  else (String.mk (escapeLiteral name.toList), false)

end CppCodeGenerator

open CppCodeGenerator

namespace GeneratedLexer

/-! ## The generated code -/

/-- The text the C++ compiler reads from the body of a plain string literal, for the one escape
the generator writes, `\\`. `none` for a body outside that: an unescaped `"` or line break, or
another escape. -/
def readCppString : List Char → Option (List Char)
  | [] => some []
  | c :: rest =>
    if c = '\\' then
      match rest with
      | d :: rest' => if d = '\\' then (readCppString rest').map ('\\' :: ·) else none
      | [] => none
    else if c = '"' || isLineTerminator c then none
    else (readCppString rest).map (c :: ·)

/-- The match of `"([^"\\]|\\.)*"` after its opening quote. Each iteration of the greedy `*`
tries a character other than `"` and `\` first, then `\` with a character other than a line
break; the loop stops at the first `"`, which ends the match. Giving iterations back never helps,
since each starts with a character other than `"`. -/
def stringBody : List Char → Option Nat
  | [] => none
  | c :: rest =>
    if c = '"' then some 1
    else if c = '\\' then
      match rest with
      | d :: rest' => if isLineTerminator d then none else (stringBody rest').map (· + 2)
      | [] => none
    else (stringBody rest).map (· + 1)

/-- `std::regex_search` with the string pattern, at position 0 of a text. -/
def stringMatch : List Char → Option Nat
  | [] => none
  | c :: rest => if c = '"' then (stringBody rest).map (· + 1) else none

theorem stringBody_le (s : List Char) : ∀ {n : Nat}, stringBody s = some n → n ≤ s.length := by
  induction s using stringBody.induct with
  | case1 => intro n h; cases h
  | case2 rest => intro n h; unfold stringBody at h; simp at h; simp [← h]
  | case3 d rest' hl => intro n h; simp [stringBody, hl] at h
  | case4 d rest' hl _ ih =>
    intro n h
    simp only [stringBody, hl, if_true, if_false, Bool.false_eq_true] at h
    obtain ⟨m, hm, rfl⟩ := Option.map_eq_some'.mp h
    have := ih hm
    simp only [List.length_cons]; omega
  | case5 => intro n h; simp [stringBody] at h
  | case6 c rest hq hb ih =>
    intro n h
    unfold stringBody at h
    rw [if_neg hq, if_neg hb] at h
    obtain ⟨m, hm, rfl⟩ := Option.map_eq_some'.mp h
    have := ih hm
    simp only [List.length_cons]; omega

theorem stringMatch_le : ∀ {s : List Char} {n : Nat}, stringMatch s = some n → n ≤ s.length
  | [], _, h => by cases h
  | c :: rest, n, h => by
    by_cases hq : c = '"'
    · rw [stringMatch, if_pos hq] at h
      obtain ⟨m, hm, rfl⟩ := Option.map_eq_some'.mp h
      simpa using stringBody_le _ hm
    · rw [stringMatch, if_neg hq] at h
      cases h

/-- The string pattern as `tokenize` runs it. -/
def stringPattern : Pattern := ⟨stringMatch, fun _ _ => stringMatch_le⟩

/-- `std::regex(pattern)` on the patterns `initialize_rules` writes: the string pattern by its
matcher, the others by the fragment's reader. -/
def compileRule (pattern : List Char) : Except String Pattern :=
  if pattern = "\"([^\"\\\\]|\\\\.)*\"".toList then .ok stringPattern
  else Regex.compile (String.mk pattern)

/-- The generated `TokenRule`: the regex, the label of the token type, and whether its matches
are skipped. -/
structure TokenRule where
  pattern : Pattern
  type : String
  skip : Bool

/-- The text of a pattern in the compiled generated source: a raw string literal as it is written,
a plain one as the compiler reads it. -/
def patternText (pattern : String × Bool) : Option (List Char) :=
  if pattern.2 then some pattern.1.toList else readCppString pattern.1.toList

/-- The rule `initialize_rules` adds for a terminal: its pattern as the compiled source reads it,
with the terminal's token name. -/
def terminalRule (a : Symbol) : Except String TokenRule :=
  match patternText (rulePattern a.name) with
  | some text => (compileRule text).map fun P => ⟨P, toTokenName a.name, false⟩
  | none => .error "string literal outside the modelled escapes"

/-- `initialize_rules`: the skipped whitespace rule, then a rule for each terminal other than
`$`. A pattern `std::regex` rejects throws from the constructor. -/
def initializeRules (t : SymbolTable) : Except String (List TokenRule) := do
  let ws ← compileRule "\\s+".toList
  let rules ← (tokenTerminals t).mapM terminalRule
  return ⟨ws, "EOF_TOKEN", true⟩ :: rules

/-- The state of `tokenize`'s loop: `pos`, `line`, `column`, the tokens so far and `errors_`. -/
structure LexState where
  pos : Nat
  line : Nat
  column : Nat
  tokens : List Generated.Token
  errors : List String

/-- The first rule whose `regex_search` on the remaining input reports a match at position 0,
with the length of the match. -/
def firstRule (s : List Char) : List TokenRule → Option (TokenRule × Nat)
  | [] => none
  | r :: rs =>
    match r.pattern.matchAt s with
    | some n => some (r, n)
    | none => firstRule s rs

/-- The line and column after a character: `line++` and `column = 1` after `'\n'`, `column++`
after any other. -/
def advance (lc : Nat × Nat) (c : Char) : Nat × Nat :=
  if c = '\n' then (lc.1 + 1, 1) else (lc.1, lc.2 + 1)

/-- The message `error(message, line, column)` pushes to `errors_`. -/
def error (message : String) (line column : Nat) : String :=
  "Lexer error at line " ++ Nat.repr line ++ ", column " ++ Nat.repr column ++ ": " ++ message

/-- One iteration of `tokenize`'s `while` loop. -/
def step (rules : List TokenRule) (input : List Char) (st : LexState) : LexState :=
  let remaining := input.drop st.pos
  match firstRule remaining rules with
  | some (rule, n) =>
    let text := remaining.take n
    let lc := text.foldl advance (st.line, st.column)
    { pos := st.pos + text.length
      line := lc.1
      column := lc.2
      tokens := if rule.skip then st.tokens
        else st.tokens ++ [⟨rule.type, String.mk text, st.line, st.column⟩]
      errors := st.errors }
  | none =>
    { st with
      pos := st.pos + 1
      column := st.column + 1
      errors := st.errors ++ [error ("Unexpected character: '" ++
        String.mk [input.getD st.pos (Char.ofNat 0)] ++ "'") st.line st.column] }

/-- The `while (pos < input.size())` loop, with at most `fuel` iterations. -/
def loop (rules : List TokenRule) (input : List Char) : Nat → LexState → Option LexState
  | 0, st => if st.pos < input.length then none else some st
  | fuel + 1, st => if st.pos < input.length then loop rules input fuel (step rules input st) else some st

/-- `tokenize`: the tokens with the EOF token after them, and `errors_`. -/
def tokenize (rules : List TokenRule) (input : String) (fuel : Nat) :
    Option (List Generated.Token × List String) :=
  (loop rules input.toList fuel ⟨0, 1, 1, [], []⟩).map fun st =>
    (st.tokens ++ [⟨"EOF_TOKEN", "", st.line, st.column⟩], st.errors)

/-- The generated lexer of a grammar run on an input: `initialize_rules` on the grammar's symbol
table, then `tokenize` with one iteration per character. The lexer is part of the generated
source, which compiles only when the token enum has distinct, non-empty enumerators. -/
def lexWith (g : Grammar) (input : String) : Option (List Generated.Token × List String) :=
  match initializeRules g.symbolTable with
  | .ok rules => tokenize rules input input.length
  | .error _ => none

/-! ## What `initialize_rules` builds -/

/-- A name the three readers keep and whose rule matches only non-empty texts: not empty, without
`\`, `"` or a line break. -/
def plainName (name : String) : Bool :=
  !name.toList.isEmpty && name.toList.all fun c => c != '\\' && c != '"' && !isLineTerminator c

/-- `\d+`. -/
def digits : Regex := ⟨false, [⟨.digit, .plus⟩], false⟩

/-- `[a-zA-Z_][a-zA-Z0-9_]*`. -/
def identifier : Regex :=
  ⟨false, [⟨.cls false [('a', 'z'), ('A', 'Z'), ('_', '_')], .one⟩,
    ⟨.cls false [('a', 'z'), ('A', 'Z'), ('0', '9'), ('_', '_')], .star⟩], false⟩

/-- `\s+`. -/
def blanks : Regex := ⟨false, [⟨.space, .plus⟩], false⟩

/-- The regex `initialize_rules` means for a terminal: a class pattern by token name, otherwise
the characters of the name one after the other. -/
def terminalPattern (a : Symbol) : Pattern :=
  let tokenName := toTokenName a.name
  if tokenName = "NUM" || tokenName = "NUMBER" || tokenName = "INT" then digits.toPattern
  else if tokenName = "ID" || tokenName = "IDENTIFIER" then identifier.toPattern
  else if tokenName = "STRING" then stringPattern
  else (⟨false, a.name.toList.map Regex.literal, false⟩ : Regex).toPattern

/-- The rules `initialize_rules` means for a symbol table. -/
def generatedRules (t : SymbolTable) : List TokenRule :=
  ⟨blanks.toPattern, "EOF_TOKEN", true⟩ ::
    (tokenTerminals t).map fun a => ⟨terminalPattern a, toTokenName a.name, false⟩

theorem escapeChar_append (c : Char) (s s' : List Char) :
    escapeChar c (s ++ s') = escapeChar c s ++ escapeChar c s' := List.flatMap_append _ _ _

theorem foldl_escapeChar_append (cs : List Char) : ∀ s s' : List Char,
    cs.foldl (fun s c => escapeChar c s) (s ++ s') =
      cs.foldl (fun s c => escapeChar c s) s ++ cs.foldl (fun s c => escapeChar c s) s' := by
  induction cs with
  | nil => intro s s'; rfl
  | cons c cs ih => intro s s'; simp only [List.foldl_cons, escapeChar_append, ih]

/-- The escaping loop works character by character. -/
theorem escapeLiteral_cons (c : Char) (cs : List Char) :
    escapeLiteral (c :: cs) = escapeLiteral [c] ++ escapeLiteral cs :=
  foldl_escapeChar_append specialChars [c] cs

theorem foldl_escapeChar_of_not_mem {x : Char} : ∀ {cs : List Char}, x ∉ cs →
    cs.foldl (fun s c => escapeChar c s) [x] = [x]
  | [], _ => rfl
  | c :: cs, h => by
    have hxc : x ≠ c := fun heq => h (heq ▸ List.mem_cons_self x cs)
    have hx : escapeChar c [x] = [x] := by simp [escapeChar, hxc]
    rw [List.foldl_cons, hx, foldl_escapeChar_of_not_mem fun hm => h (List.mem_cons_of_mem c hm)]

/-- A special character other than `\` comes out behind two backslashes; the C++ compiler reads
them as one. -/
theorem escapeLiteral_singleton {c : Char} (hc : c ≠ '\\') :
    escapeLiteral [c] = if Lexer.regexSpecial c then ['\\', '\\', c] else [c] := by
  by_cases hs : Lexer.regexSpecial c = true
  · rw [if_pos hs]
    simp only [Lexer.regexSpecial, List.mem_cons, List.mem_singleton, List.not_mem_nil, or_false,
      decide_eq_true_eq] at hs
    rcases hs with rfl | rfl | rfl | rfl | rfl | rfl | rfl | rfl | rfl | rfl | rfl | rfl | rfl | rfl
    all_goals first | rfl | exact absurd rfl hc
  · rw [if_neg hs]
    refine foldl_escapeChar_of_not_mem fun hm => hs ?_
    simp only [specialChars, List.mem_cons, List.mem_singleton, List.not_mem_nil, or_false] at hm
    rcases hm with rfl | rfl | rfl | rfl | rfl | rfl | rfl | rfl | rfl | rfl | rfl | rfl | rfl | rfl <;> rfl

theorem readCppString_escaped (rest : List Char) :
    readCppString ('\\' :: '\\' :: rest) = (readCppString rest).map ('\\' :: ·) := by
  rw [readCppString.eq_2, if_pos rfl, if_pos rfl]

theorem readCppString_plain {c : Char} (hb : c ≠ '\\') (hq : c ≠ '"') (hl : isLineTerminator c = false)
    (rest : List Char) : readCppString (c :: rest) = (readCppString rest).map (c :: ·) := by
  cases rest <;> simp only [readCppString.eq_2, readCppString.eq_3, if_neg hb, hq, hl, decide_False,
    Bool.or_false, Bool.false_eq_true, if_false, readCppString.eq_1]

theorem escapeLiteral_nil : escapeLiteral [] = [] := by simp [escapeLiteral, specialChars, escapeChar]

/-- For a name without `\`, `"` or line breaks, the compiler reads the escaped name back as the
name with each syntax character escaped once, the text `add_keyword` writes. -/
theorem readCppString_escapeLiteral : ∀ {name : List Char},
    (∀ c ∈ name, c ≠ '\\' ∧ c ≠ '"' ∧ isLineTerminator c = false) →
      readCppString (escapeLiteral name) = some (Regex.escapeKeyword name)
  | [], _ => by rw [escapeLiteral_nil]; rfl
  | c :: cs, h => by
    obtain ⟨hb, hq, hl⟩ := h c (List.mem_cons_self c cs)
    have ih := readCppString_escapeLiteral fun x hx => h x (List.mem_cons_of_mem c hx)
    rw [escapeLiteral_cons, escapeLiteral_singleton hb,
      show Regex.escapeKeyword (c :: cs) = (if Lexer.regexSpecial c then ['\\', c] else [c]) ++
        Regex.escapeKeyword cs from rfl]
    split
    · rw [List.cons_append, List.cons_append, List.cons_append, List.nil_append, readCppString_escaped,
        readCppString_plain hb hq hl, ih]
      rfl
    · rw [List.singleton_append, List.singleton_append, readCppString_plain hb hq hl, ih]
      rfl

/-- The string pattern's text is not an escaped plain name: it holds a `"`. -/
theorem escapeKeyword_ne_stringText {name : List Char} (h : ∀ c ∈ name, c ≠ '"') :
    Regex.escapeKeyword name ≠ "\"([^\"\\\\]|\\\\.)*\"".toList := fun heq => by
  have hmem : '"' ∈ Regex.escapeKeyword name := heq ▸ List.mem_cons_self _ _
  simp only [Regex.escapeKeyword, List.mem_flatMap] at hmem
  obtain ⟨c, hc, hin⟩ := hmem
  split at hin <;> simp at hin
  · exact h c hc hin.symm
  · exact h c hc hin.symm

theorem plainName_iff {name : String} :
    plainName name = true ↔ name.toList ≠ [] ∧ ∀ c ∈ name.toList, c ≠ '\\' ∧ c ≠ '"' ∧ isLineTerminator c = false := by
  simp [plainName, List.isEmpty_iff, and_assoc]

theorem toList_mk (l : List Char) : (String.mk l).toList = l := rfl

/-- The rule the compiled source builds for a terminal with a plain name is the rule meant. -/
theorem terminalRule_eq {a : Symbol} (h : plainName a.name = true) :
    terminalRule a = .ok ⟨terminalPattern a, toTokenName a.name, false⟩ := by
  obtain ⟨-, hchars⟩ := plainName_iff.mp h
  by_cases h1 : (toTokenName a.name = "NUM" || toTokenName a.name = "NUMBER" || toTokenName a.name = "INT") = true
  · simp only [terminalRule, terminalPattern, rulePattern, if_pos h1]
    rfl
  by_cases h2 : (toTokenName a.name = "ID" || toTokenName a.name = "IDENTIFIER") = true
  · simp only [terminalRule, terminalPattern, rulePattern, if_neg h1, if_pos h2]
    rfl
  by_cases h3 : toTokenName a.name = "STRING"
  · simp only [terminalRule, terminalPattern, rulePattern, if_neg h1, if_neg h2, if_pos h3]
    rfl
  have hcomp : compileRule (Regex.escapeKeyword a.name.toList) =
      .ok (⟨false, a.name.toList.map Regex.literal, false⟩ : Regex).toPattern := by
    rw [compileRule, if_neg (escapeKeyword_ne_stringText fun c hc => (hchars c hc).2.1), Regex.compile,
      toList_mk, Regex.parse_escapeKeyword]
  have htext : patternText (String.mk (escapeLiteral a.name.toList), false) =
      some (Regex.escapeKeyword a.name.toList) := by
    rw [patternText, if_neg Bool.false_ne_true, toList_mk, readCppString_escapeLiteral hchars]
  simp only [terminalRule, terminalPattern, rulePattern, if_neg h1, if_neg h2, if_neg h3, htext, hcomp]
  rfl

theorem mapM_terminalRule : ∀ {as : List Symbol}, (∀ a ∈ as, plainName a.name = true) →
    as.mapM terminalRule = .ok (as.map fun a => ⟨terminalPattern a, toTokenName a.name, false⟩)
  | [], _ => rfl
  | a :: as, h => by
    rw [List.mapM_cons, terminalRule_eq (h a (List.mem_cons_self a as)),
      mapM_terminalRule fun x hx => h x (List.mem_cons_of_mem a hx)]
    rfl

/-- For a table whose terminal names are plain, `initialize_rules` builds the rules meant: the
escaping loop, the C++ string literal and `std::regex` together read each literal name back as
itself. -/
theorem initializeRules_eq (t : SymbolTable) (h : ∀ a ∈ tokenTerminals t, plainName a.name = true) :
    initializeRules t = .ok (generatedRules t) := by
  rw [initializeRules, show compileRule "\\s+".toList = .ok blanks.toPattern from rfl, mapM_terminalRule h]
  rfl

/-- The rule of a terminal the generator writes as a literal matches exactly where the text starts
with the name. -/
theorem terminalPattern_literal {a : Symbol} (hlit : (rulePattern a.name).2 = false) (s : List Char) :
    (terminalPattern a).matchAt s = if a.name.toList <+: s then some a.name.length else none := by
  have hcls : ¬(toTokenName a.name = "NUM" || toTokenName a.name = "NUMBER" || toTokenName a.name = "INT") = true ∧
      ¬(toTokenName a.name = "ID" || toTokenName a.name = "IDENTIFIER") = true ∧
      ¬toTokenName a.name = "STRING" := by
    simp only [rulePattern] at hlit
    split_ifs at hlit with h1 h2 h3
    exact ⟨h1, h2, h3⟩
  obtain ⟨h1, h2, h3⟩ := hcls
  have h := Regex.matchPieces_literal_append false [] a.name.toList s
  rw [List.append_nil] at h
  simp only [terminalPattern, if_neg h1, if_neg h2, if_neg h3]
  show Regex.matchPieces false _ s = _
  rw [h]
  split
  · rfl
  · rfl

/-! ## The loop of `tokenize` -/

theorem firstRule_mem {s : List Char} {r : TokenRule} {n : Nat} :
    ∀ {rules : List TokenRule}, firstRule s rules = some (r, n) → r ∈ rules ∧ r.pattern.matchAt s = some n
  | [], h => by cases h
  | r' :: rs, h => by
    unfold firstRule at h
    split at h
    · cases h; exact ⟨List.mem_cons_self _ _, ‹_›⟩
    · exact (firstRule_mem h).imp (List.mem_cons_of_mem _) id

/-- The rule `firstRule` picks from `xs ++ ys` is one of `xs` if one of `xs` matches. -/
theorem firstRule_append {s : List Char} {r : TokenRule} {n : Nat} : ∀ {xs ys : List TokenRule},
    firstRule s (xs ++ ys) = some (r, n) → (firstRule s xs).isSome = true → r ∈ xs
  | [], _, _, h' => by cases h'
  | x :: xs, ys, h, h' => by
    simp only [List.cons_append, firstRule] at h h'
    split at h
    · cases h; exact List.mem_cons_self _ _
    · next hx =>
      rw [hx] at h'
      exact List.mem_cons_of_mem _ (firstRule_append h h')

theorem foldl_advance : ∀ (text p : List Char),
    text.foldl advance (lineAfter p, columnAfter p) = (lineAfter (p ++ text), columnAfter (p ++ text))
  | [], p => by simp
  | c :: text, p => by
    have hc : advance (lineAfter p, columnAfter p) c = (lineAfter (p ++ [c]), columnAfter (p ++ [c])) := by
      rw [lineAfter_append_singleton, columnAfter_append_singleton, advance]
      split <;> rfl
    rw [List.foldl_cons, hc, foldl_advance text (p ++ [c]), List.append_assoc, List.singleton_append]

section Run

variable {rules : List TokenRule} {input : List Char}

/-- A token `tokenize` pushes for `input`: the match of the first rule matching at a position `p`,
that rule not skipped and of the token's type, with the line and column of `p`. -/
def TokenAt (rules : List TokenRule) (input : List Char) (tok : Generated.Token) : Prop :=
  ∃ p r, firstRule (input.drop p) rules = some (r, tok.text.length) ∧ r.skip = false ∧ r.type = tok.type ∧
    tok.text.data <+: input.drop p ∧ tok.line = lineAfter (input.take p) ∧
    tok.column = columnAfter (input.take p)

/-- A message `tokenize` logs for `input`: the character at a position `p` where no rule matches,
with the line and column of `p`. -/
def ErrorAt (rules : List TokenRule) (input : List Char) (e : String) : Prop :=
  ∃ p, ∃ h : p < input.length, firstRule (input.drop p) rules = none ∧
    e = error ("Unexpected character: '" ++ String.mk [input[p]] ++ "'") (lineAfter (input.take p))
      (columnAfter (input.take p))

/-- What holds of the loop's state after each iteration: the position is in the input with its
line and column, every token and error was pushed at an earlier position, and the tokens' texts
appear in the input read so far in order, without overlap. -/
structure Inv (rules : List TokenRule) (input : List Char) (st : LexState) : Prop where
  pos_le : st.pos ≤ input.length
  line : st.line = lineAfter (input.take st.pos)
  column : st.column = columnAfter (input.take st.pos)
  tokens : ∀ tok ∈ st.tokens, TokenAt rules input tok
  errors : ∀ e ∈ st.errors, ErrorAt rules input e
  ordered : List.Sublist (st.tokens.flatMap (·.text.data)) (input.take st.pos)

theorem Inv.init : Inv rules input ⟨0, 1, 1, [], []⟩ :=
  ⟨Nat.zero_le _, rfl, rfl, by simp, by simp, by simp⟩

/-- Rules that never match the empty string. -/
def NonEmptyRules (rules : List TokenRule) : Prop :=
  ∀ r ∈ rules, ∀ s n, r.pattern.matchAt s = some n → 0 < n

/-- An iteration where rule `r` matches `n` characters. -/
theorem step_of_firstRule {st : LexState} {r : TokenRule} {n : Nat}
    (hm : firstRule (input.drop st.pos) rules = some (r, n)) :
    step rules input st =
      { pos := st.pos + ((input.drop st.pos).take n).length
        line := (((input.drop st.pos).take n).foldl advance (st.line, st.column)).1
        column := (((input.drop st.pos).take n).foldl advance (st.line, st.column)).2
        tokens := if r.skip then st.tokens
          else st.tokens ++ [⟨r.type, String.mk ((input.drop st.pos).take n), st.line, st.column⟩]
        errors := st.errors } := by
  simp only [step, hm]

/-- An iteration where no rule matches. -/
theorem step_of_firstRule_none {st : LexState} (hm : firstRule (input.drop st.pos) rules = none) :
    step rules input st =
      { st with
        pos := st.pos + 1
        column := st.column + 1
        errors := st.errors ++ [error ("Unexpected character: '" ++
          String.mk [input.getD st.pos (Char.ofNat 0)] ++ "'") st.line st.column] } := by
  simp only [step, hm]

/-- An iteration keeps the invariant, given a rule for every newline: the error path moves one
column on, which is right for any other character. -/
theorem step_inv (hnl : ∀ s, (firstRule ('\n' :: s) rules).isSome = true) {st : LexState}
    (h : Inv rules input st) (hlt : st.pos < input.length) : Inv rules input (step rules input st) := by
  cases hm : firstRule (input.drop st.pos) rules with
  | some rn =>
    obtain ⟨r, n⟩ := rn
    rw [step_of_firstRule hm]
    have hn : n ≤ (input.drop st.pos).length := r.pattern.le_length _ _ (firstRule_mem hm).2
    have hlen : ((input.drop st.pos).take n).length = n := List.length_take_of_le hn
    have htake : input.take (st.pos + n) = input.take st.pos ++ (input.drop st.pos).take n :=
      List.take_add _ _ _
    have hlc := foldl_advance ((input.drop st.pos).take n) (input.take st.pos)
    rw [← h.line, ← h.column, ← htake] at hlc
    have hle : st.pos + n ≤ input.length := by rw [List.length_drop] at hn; omega
    have hnew : ∀ tok ∈ st.tokens ++ [⟨r.type, String.mk ((input.drop st.pos).take n), st.line, st.column⟩],
        r.skip = false → TokenAt rules input tok := by
      intro tok htok hs
      rcases List.mem_append.mp htok with htok | htok
      · exact h.tokens tok htok
      · rw [List.mem_singleton] at htok
        subst htok
        exact ⟨st.pos, r, by rwa [String.length_mk, hlen], hs, rfl, List.take_prefix _ _, h.line, h.column⟩
    refine ⟨?_, ?_, ?_, ?_, h.errors, ?_⟩ <;> dsimp only
    · rw [hlen]; exact hle
    · rw [hlen, hlc]
    · rw [hlen, hlc]
    · cases hs : r.skip
      · exact fun tok htok => hnew tok htok hs
      · exact h.tokens
    · rw [hlen, htake]
      cases hs : r.skip
      · rw [if_neg Bool.false_ne_true, List.flatMap_append, List.flatMap_singleton]
        exact h.ordered.append (List.Sublist.refl _)
      · exact h.ordered.trans (List.sublist_append_left _ _)
  | none =>
    rw [step_of_firstRule_none hm]
    have hdrop : input.drop st.pos = input[st.pos] :: input.drop (st.pos + 1) := List.drop_eq_getElem_cons hlt
    have hc : input[st.pos] ≠ '\n' := fun heq => by
      have := hnl (input.drop (st.pos + 1))
      rw [← heq, ← hdrop, hm] at this
      cases this
    have htake : input.take (st.pos + 1) = input.take st.pos ++ [input[st.pos]] := by
      rw [List.take_succ, List.getElem?_eq_getElem hlt]
      rfl
    refine ⟨hlt, ?_, ?_, h.tokens, ?_, ?_⟩ <;> dsimp only
    · rw [htake, lineAfter_append_singleton, if_neg hc, ← h.line]
    · rw [htake, columnAfter_append_singleton, if_neg hc, ← h.column]
    · intro e he
      rcases List.mem_append.mp he with he | he
      · exact h.errors e he
      · rw [List.mem_singleton] at he
        refine ⟨st.pos, hlt, hm, ?_⟩
        rw [he, List.getD_eq_getElem?_getD, List.getElem?_eq_getElem hlt, Option.getD_some, h.line, h.column]
    · rw [htake]
      exact h.ordered.trans (List.sublist_append_left _ _)

/-- With rules that never match the empty string, every iteration moves the position on. -/
theorem lt_step_pos (hne : NonEmptyRules rules) (st : LexState) : st.pos < (step rules input st).pos := by
  cases hm : firstRule (input.drop st.pos) rules with
  | some rn =>
    obtain ⟨r, n⟩ := rn
    obtain ⟨hr, hmatch⟩ := firstRule_mem hm
    have hpos := hne r hr _ _ hmatch
    rw [step_of_firstRule hm]
    show st.pos < st.pos + ((input.drop st.pos).take n).length
    rw [List.length_take_of_le (r.pattern.le_length _ _ hmatch)]
    omega
  | none =>
    rw [step_of_firstRule_none hm]
    exact Nat.lt_succ_self _

/-- Whatever the loop returns was reached by iterations that each kept the invariant, and is at
the end of the input. -/
theorem loop_inv (hnl : ∀ s, (firstRule ('\n' :: s) rules).isSome = true) :
    ∀ {fuel : Nat} {st st' : LexState}, Inv rules input st → loop rules input fuel st = some st' →
      Inv rules input st' ∧ input.length ≤ st'.pos
  | 0, st, st', h, hl => by
    unfold loop at hl
    split at hl
    · cases hl
    · cases hl; exact ⟨h, by omega⟩
  | fuel + 1, st, st', h, hl => by
    unfold loop at hl
    split at hl
    · exact loop_inv hnl (step_inv hnl h ‹_›) hl
    · cases hl; exact ⟨h, by omega⟩

/-- With rules that never match the empty string, one iteration per remaining character is enough
fuel. -/
theorem loop_isSome (hne : NonEmptyRules rules) :
    ∀ (fuel : Nat) (st : LexState), input.length - st.pos ≤ fuel → (loop rules input fuel st).isSome = true
  | 0, st, hf => by
    unfold loop
    rw [if_neg (by omega)]
    rfl
  | fuel + 1, st, hf => by
    unfold loop
    split
    · exact loop_isSome hne fuel _ (by have := @lt_step_pos _ input hne st; omega)
    · rfl

/-- `tokenize` with rules that never match the empty string and match every newline: with one
iteration per character it returns the EOF token at the line and column of the end of the input
after the tokens, each the match of the first rule matching at its position with that position's
line and column, in input order without overlap, and an error for each character no rule
matches. -/
theorem tokenize_spec (hne : NonEmptyRules rules) (hnl : ∀ s, (firstRule ('\n' :: s) rules).isSome = true)
    (input : String) {fuel : Nat} (hfuel : input.length ≤ fuel) :
    ∃ toks errs, tokenize rules input fuel =
        some (toks ++ [⟨"EOF_TOKEN", "", lineAfter input.toList, columnAfter input.toList⟩], errs) ∧
      (∀ tok ∈ toks, TokenAt rules input.toList tok) ∧ (∀ e ∈ errs, ErrorAt rules input.toList e) ∧
      List.Sublist (toks.flatMap (·.text.data)) input.toList := by
  obtain ⟨st, hst⟩ := Option.isSome_iff_exists.mp
    (@loop_isSome _ input.toList hne fuel ⟨0, 1, 1, [], []⟩ (Nat.sub_le_of_le_add (by
      show input.toList.length ≤ fuel + 0
      exact hfuel)))
  obtain ⟨h, hend⟩ := loop_inv hnl Inv.init hst
  have htake : input.toList.take st.pos = input.toList := List.take_of_length_le hend
  refine ⟨st.tokens, st.errors, ?_, h.tokens, h.errors, htake ▸ h.ordered⟩
  rw [tokenize, hst, Option.map_some', h.line, h.column, htake]

end Run

/-! ## The generated rules -/

theorem stringMatch_pos {s : List Char} {n : Nat} (h : stringMatch s = some n) : 0 < n := by
  cases s with
  | nil => cases h
  | cons c rest =>
    by_cases hq : c = '"'
    · rw [stringMatch, if_pos hq] at h
      obtain ⟨m, -, rfl⟩ := Option.map_eq_some'.mp h
      omega
    · rw [stringMatch, if_neg hq] at h
      cases h

theorem minLength_map_literal : ∀ name : List Char, Regex.minLength (name.map Regex.literal) = name.length
  | [] => rfl
  | c :: cs => by
    rw [List.map_cons, List.length_cons, ← minLength_map_literal cs]
    simp [Regex.minLength, Regex.literal, Regex.Quant.lo, Nat.add_comm]

/-- A terminal with a non-empty name gets a rule that never matches the empty string. -/
theorem terminalPattern_pos {a : Symbol} (hne : a.name.toList ≠ []) {s : List Char} {n : Nat}
    (h : (terminalPattern a).matchAt s = some n) : 0 < n := by
  dsimp only [terminalPattern] at h
  split_ifs at h
  · exact Regex.matchAt_pos (by decide) h
  · exact Regex.matchAt_pos (by decide) h
  · exact stringMatch_pos h
  · exact Regex.matchAt_pos (by rw [minLength_map_literal]; exact List.length_pos.mpr hne) h

theorem generatedRules_nonEmpty {t : SymbolTable} (h : ∀ a ∈ tokenTerminals t, plainName a.name = true) :
    NonEmptyRules (generatedRules t) := by
  intro r hr s n hm
  rcases List.mem_cons.mp hr with rfl | hr
  · exact Regex.matchAt_pos (by decide) hm
  · obtain ⟨a, ha, rfl⟩ := List.mem_map.mp hr
    exact terminalPattern_pos (plainName_iff.mp (h a ha)).1 hm

theorem firstRule_isSome_of_mem {s : List Char} {r : TokenRule} :
    ∀ {rules : List TokenRule}, r ∈ rules → (r.pattern.matchAt s).isSome = true → (firstRule s rules).isSome = true
  | [], hr, _ => by cases hr
  | r' :: rs, hr, hm => by
    unfold firstRule
    split
    · rfl
    · next hnone =>
      rcases List.mem_cons.mp hr with rfl | hr
      · rw [hnone] at hm; cases hm
      · exact firstRule_isSome_of_mem hr hm

/-- The first rule, `\s+`, matches every newline. -/
theorem generatedRules_newline (t : SymbolTable) (s : List Char) :
    (firstRule ('\n' :: s) (generatedRules t)).isSome = true :=
  firstRule_isSome_of_mem (List.mem_cons_self _ _) (Regex.matchPieces_complete (t := ['\n'])
    (@Regex.Matches.cons ⟨.space, .plus⟩ [] ['\n'] [] (by decide) ⟨le_rfl, fun _ hh => by cases hh⟩ .nil)
    ⟨s, rfl⟩ (fun hh => by cases hh))

/-- A declaration with the keyword `'int'`. -/
def declG4 : List Char := "grammar Decl;\ndecl : 'int' ID;\n".toList

/-- A comparison whose `'='` comes before `'=='`. -/
def cmpG4 : List Char := "grammar Cmp;\ncmp : ID '=' ID | ID '==' ID;\n".toList

/-- The generated lexer of a grammar whose terminal names are plain reads every input to its end:
the tokens it returns are matches of the first rule matching at their positions, with those
positions' lines and columns, in input order without overlap, followed by the EOF token at the
end's line and column; the errors name the characters no rule matches. -/
theorem generated_tokenize_spec (g : Grammar)
    (h : ∀ a ∈ tokenTerminals g.symbolTable, plainName a.name = true) (input : String) :
    ∃ toks errs, lexWith g input =
        some (toks ++ [⟨"EOF_TOKEN", "", lineAfter input.toList, columnAfter input.toList⟩], errs) ∧
      (∀ tok ∈ toks, TokenAt (generatedRules g.symbolTable) input.toList tok) ∧
      (∀ e ∈ errs, ErrorAt (generatedRules g.symbolTable) input.toList e) ∧
      List.Sublist (toks.flatMap (·.text.data)) input.toList := by
  rw [lexWith, initializeRules_eq _ h]
  exact tokenize_spec (generatedRules_nonEmpty h) (generatedRules_newline _) input le_rfl

theorem generated_tokenize_spec_decl :
    ∃ g, (parseString ⟨[], [], [], []⟩ declG4).2 = some g ∧
      (∀ a ∈ tokenTerminals g.symbolTable, plainName a.name = true) ∧
      ∃ toks errs, lexWith g "int x" =
          some (toks ++ [⟨"EOF_TOKEN", "", lineAfter "int x".toList, columnAfter "int x".toList⟩], errs) ∧
        (∀ tok ∈ toks, TokenAt (generatedRules g.symbolTable) "int x".toList tok) ∧
        (∀ e ∈ errs, ErrorAt (generatedRules g.symbolTable) "int x".toList e) ∧
        List.Sublist (toks.flatMap (·.text.data)) "int x".toList := by
  refine ⟨(parseString ⟨[], [], [], []⟩ declG4).2.get (by decide), (Option.some_get _).symm, ?_⟩
  exact ⟨by decide, generated_tokenize_spec _ (by decide) "int x"⟩

/-- The rules the compiled source builds give each terminal the generator writes as a literal a
rule, not skipped, of its token name, that matches exactly where the input starts with the
name. -/
theorem literal_rule_matches_name (t : SymbolTable) (h : ∀ a ∈ tokenTerminals t, plainName a.name = true) :
    ∃ rules, initializeRules t = .ok rules ∧ ∀ a ∈ tokenTerminals t, (rulePattern a.name).2 = false →
      ∃ r ∈ rules, r.type = toTokenName a.name ∧ r.skip = false ∧
        ∀ s, r.pattern.matchAt s = if a.name.toList <+: s then some a.name.length else none :=
  ⟨_, initializeRules_eq t h, fun _ ha hlit =>
    ⟨_, List.mem_cons_of_mem _ (List.mem_map_of_mem _ ha), rfl, rfl, terminalPattern_literal hlit⟩⟩

theorem literal_rule_matches_name_cmp :
    ∃ g, (parseString ⟨[], [], [], []⟩ cmpG4).2 = some g ∧
      ∃ rules, initializeRules g.symbolTable = .ok rules ∧ ∀ a ∈ tokenTerminals g.symbolTable,
        (rulePattern a.name).2 = false → ∃ r ∈ rules, r.type = toTokenName a.name ∧ r.skip = false ∧
          ∀ s, r.pattern.matchAt s = if a.name.toList <+: s then some a.name.length else none := by
  refine ⟨(parseString ⟨[], [], [], []⟩ cmpG4).2.get (by decide), (Option.some_get _).symm, ?_⟩
  exact literal_rule_matches_name _ (by decide)

/-- A rule of the generated lexer not skipped is a terminal's rule. -/
theorem mem_generatedRules {t : SymbolTable} {r : TokenRule} (hr : r ∈ generatedRules t) (hs : r.skip = false) :
    ∃ a ∈ tokenTerminals t, r = ⟨terminalPattern a, toTokenName a.name, false⟩ := by
  rcases List.mem_cons.mp hr with rfl | hr
  · cases hs
  · obtain ⟨a, ha, rfl⟩ := List.mem_map.mp hr
    exact ⟨a, ha, rfl⟩

/-- The pattern depends on the token name only: a terminal whose token name is `INT`, such as a
keyword `'int'`, gets the rule `\d+`. So every `INT` token of the generated lexer is a run of
digits, and the keyword is never read as one. -/
theorem int_tokens_are_digits (g : Grammar)
    (h : ∀ a ∈ tokenTerminals g.symbolTable, plainName a.name = true) (input : String) :
    ∃ toks errs, lexWith g input = some (toks, errs) ∧
      ∀ tok ∈ toks, tok.type = "INT" → tok.text.data ≠ [] ∧ ∀ c ∈ tok.text.data, c.isDigit = true := by
  obtain ⟨toks, errs, hrun, htoks, -, -⟩ :=
    tokenize_spec (generatedRules_nonEmpty h) (generatedRules_newline g.symbolTable) input le_rfl
  refine ⟨_, errs, by rw [lexWith, initializeRules_eq _ h]; exact hrun, fun tok htok hint => ?_⟩
  rcases List.mem_append.mp htok with htok | htok
  · obtain ⟨p, r, hfr, hs, hty, hpre, -, -⟩ := htoks tok htok
    obtain ⟨hr, hm⟩ := firstRule_mem hfr
    obtain ⟨a, -, rfl⟩ := mem_generatedRules hr hs
    have hname : toTokenName a.name = "INT" := hty.trans hint
    have hdig : terminalPattern a = digits.toPattern := by
      simp only [terminalPattern, hname]
      rfl
    rw [hdig] at hm
    obtain ⟨-, hmatch, -⟩ := Regex.matchPieces_sound hm
    have htext : tok.text.data = (input.toList.drop p).take tok.text.length := List.prefix_iff_eq_take.mp hpre
    refine ⟨fun hnil => ?_, fun c hc => ?_⟩
    · have := Regex.matchAt_pos (r := digits) (by decide) hm
      rw [String.length, hnil] at this
      cases this
    · rw [htext] at hc
      obtain ⟨q, hq, hqc⟩ := hmatch.test_of_mem c hc
      simp only [digits, List.mem_singleton] at hq
      subst hq
      exact hqc
  · rw [List.mem_singleton] at htok
    subst htok
    exact absurd hint (by decide : "EOF_TOKEN" ≠ "INT")

/-- With the keyword `'int'`, `int x` is read as two identifiers. -/
theorem int_keyword_read_as_identifier :
    ∃ g, (parseString ⟨[], [], [], []⟩ declG4).2 = some g ∧
      (∃ a ∈ tokenTerminals g.symbolTable, a.name = "int" ∧ toTokenName a.name = "INT") ∧
      lexWith g "int x" = some ([⟨"ID", "int", 1, 1⟩, ⟨"ID", "x", 1, 5⟩, ⟨"EOF_TOKEN", "", 1, 6⟩], []) ∧
      ∃ toks errs, lexWith g "int x" = some (toks, errs) ∧
        ∀ tok ∈ toks, tok.type = "INT" → tok.text.data ≠ [] ∧ ∀ c ∈ tok.text.data, c.isDigit = true := by
  refine ⟨(parseString ⟨[], [], [], []⟩ declG4).2.get (by decide), (Option.some_get _).symm, ?_⟩
  exact ⟨by decide, by decide, int_tokens_are_digits _ (by decide) "int x"⟩

/-- The first matching rule wins, not the longest match: a terminal whose every match the rule of
an earlier terminal matches too never becomes a token, whatever the input. With `'='` before
`'=='`, `==` is read as two `=`; with `ID` before a keyword, the keyword is read as an `ID`. The
token names are distinct, as the generated `enum class TokenType` needs. -/
theorem shadowed_terminal_never_lexed (g : Grammar)
    (h : ∀ a ∈ tokenTerminals g.symbolTable, plainName a.name = true)
    (hnd : ((tokenTerminals g.symbolTable).map (toTokenName ·.name)).Nodup)
    {pre mid post : List Symbol} {a b : Symbol}
    (hord : tokenTerminals g.symbolTable = pre ++ b :: mid ++ a :: post)
    (hshadow : ∀ s n, (terminalPattern a).matchAt s = some n → ((terminalPattern b).matchAt s).isSome = true)
    (input : String) :
    ∃ toks errs, lexWith g input =
        some (toks ++ [⟨"EOF_TOKEN", "", lineAfter input.toList, columnAfter input.toList⟩], errs) ∧
      ∀ tok ∈ toks, tok.type ≠ toTokenName a.name := by
  obtain ⟨toks, errs, hrun, htoks, -, -⟩ :=
    tokenize_spec (generatedRules_nonEmpty h) (generatedRules_newline g.symbolTable) input le_rfl
  refine ⟨toks, errs, by rw [lexWith, initializeRules_eq _ h]; exact hrun, fun tok htok hty => ?_⟩
  obtain ⟨p, r, hfr, hs, hrty, -, -, -⟩ := htoks tok htok
  obtain ⟨hr, hm⟩ := firstRule_mem hfr
  obtain ⟨x, hx, rfl⟩ := mem_generatedRules hr hs
  have hlist : tokenTerminals g.symbolTable = (pre ++ [b]) ++ (mid ++ a :: post) := by rw [hord]; simp
  have hxa : x = a := List.inj_on_of_nodup_map hnd hx (by rw [hlist]; simp) (hrty.trans hty)
  subst hxa
  -- the rule of `x` was picked, though the rule of `b`, earlier, matches there too
  have hsplit : generatedRules g.symbolTable =
      (⟨blanks.toPattern, "EOF_TOKEN", true⟩ :: (pre ++ [b]).map fun a => ⟨terminalPattern a, toTokenName a.name, false⟩) ++
        (mid ++ x :: post).map fun a => ⟨terminalPattern a, toTokenName a.name, false⟩ := by
    rw [generatedRules, hlist, List.map_append, List.cons_append]
  rw [hsplit] at hfr
  have hfirst := firstRule_append hfr (firstRule_isSome_of_mem (List.mem_cons_of_mem _
    (List.mem_map_of_mem _ (List.mem_append_right pre (List.mem_singleton_self b)))) (hshadow _ _ hm))
  rcases List.mem_cons.mp hfirst with hblank | hfirst
  · cases congrArg TokenRule.skip hblank
  · obtain ⟨y, hy, hyx⟩ := List.mem_map.mp hfirst
    have hname : toTokenName y.name = toTokenName x.name := congrArg TokenRule.type hyx
    have hnd' : ((pre ++ [b]).map (toTokenName ·.name) ++ (mid ++ x :: post).map (toTokenName ·.name)).Nodup := by
      rw [← List.map_append, ← hlist]; exact hnd
    exact List.disjoint_left.mp (List.nodup_append.mp hnd').2.2 (List.mem_map_of_mem _ hy)
      (by rw [hname]; exact List.mem_map_of_mem _ (by simp))

/-- With `'='` before `'=='`, `a == b` is read with two `=`. -/
theorem double_equals_read_as_two :
    ∃ g, (parseString ⟨[], [], [], []⟩ cmpG4).2 = some g ∧
      lexWith g "a == b" = some ([⟨"ID", "a", 1, 1⟩, ⟨"EQUALS", "=", 1, 3⟩, ⟨"EQUALS", "=", 1, 4⟩,
        ⟨"ID", "b", 1, 6⟩, ⟨"EOF_TOKEN", "", 1, 7⟩], []) ∧
      ∃ toks errs, lexWith g "a == b" =
          some (toks ++ [⟨"EOF_TOKEN", "", lineAfter "a == b".toList, columnAfter "a == b".toList⟩], errs) ∧
        ∀ tok ∈ toks, tok.type ≠ toTokenName "==" := by
  refine ⟨(parseString ⟨[], [], [], []⟩ cmpG4).2.get (by decide), (Option.some_get _).symm, by decide, ?_⟩
  have hshadow : ∀ s n, (terminalPattern (.terminal "==" .identifier)).matchAt s = some n →
      ((terminalPattern (.terminal "=" .identifier)).matchAt s).isSome = true := fun s n hm => by
    rw [terminalPattern_literal (a := .terminal "==" .identifier) (by decide)] at hm
    split at hm
    · next hpre =>
      rw [terminalPattern_literal (a := .terminal "=" .identifier) (by decide),
        if_pos (show (Symbol.terminal "=" .identifier).name.toList <+: s from
          (by decide : "=".toList <+: "==".toList).trans hpre)]
      rfl
    · cases hm
  exact @shadowed_terminal_never_lexed _ (by decide) (by decide) [.terminal "ID" .identifier] [] []
    (.terminal "==" .identifier) (.terminal "=" .identifier) (by decide) hshadow "a == b"

end GeneratedLexer

end Lalr1
