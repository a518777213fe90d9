import Lalr1.Parser

/-!
# The lexer

`class Lexer` (`lexer.h`, `lexer.cpp`). `next_token` tries the rules at the current position in
the order they were added and takes the first that matches there. A skip rule's match is dropped
and `next_token` is called again. A character that no rule matches becomes an `ERROR_TOKEN`. Once
the input is consumed, every call returns an `EOF_TOKEN` at the end position. Line and column
follow each character read, and `'\n'` starts a new line.

A regex is modelled by what the lexer asks of it (`Pattern`): the length of the match that
`std::regex_search` reports at position 0 of the remaining input, if it reports one there. Fuel
bounds the recursion of a skip.

`parse_internal` reads the lexer only through `next_token`: once before its loop and once per
shift. When no rule matches the empty string and none has the kind `EOF_TOKEN`, successive calls
return the tokens of a `TokenStream`: the tokens before the end of the input, then the EOF token
at the end, forever (`tokensFrom_spec`, in `Lalr1.ParseInput`). This is the token source the
driver is modelled with. A rule that is the first to match and matches the empty string stops the
lexer: as a skip rule it makes `next_token` call itself forever
(`nextToken_eq_none_of_empty_skip`), and otherwise every call returns the same empty token without
moving (`calls_of_empty_match`).
-/

namespace Lalr1

/-- A compiled `std::regex`, as `next_token` uses it: the length of the match `std::regex_search`
finds at position 0 of a text, if it finds one there. A match is a prefix of the text. -/
structure Pattern where
  matchAt : List Char → Option Nat
  le_length : ∀ s n, matchAt s = some n → n ≤ s.length

/-- `struct LexerRule`: token kind, regex, and whether its matches are skipped. -/
structure LexerRule where
  type : TokenType
  regex : Pattern
  skip : Bool

/-- `class Lexer`: the rules, the input, the position with its line and column, and the message of
the last error. -/
structure Lexer where
  rules : List LexerRule
  input : List Char
  currentPos : Nat
  currentLine : Nat
  currentColumn : Nat
  errorMessage : String

namespace Lexer

/-- `Lexer::Lexer`. -/
def new : Lexer := ⟨[], [], 0, 1, 1, ""⟩

section

variable (compile : String → Except String Pattern)

/-- `Lexer::add_rule`. The constructor of `std::regex` is `compile`. A pattern it rejects adds no
rule and sets the error message. -/
def addRule (l : Lexer) (type : TokenType) (pattern : String) (skip : Bool) : Lexer :=
  match compile pattern with
  | .ok regex => { l with rules := l.rules ++ [⟨type, regex, skip⟩] }
  | .error what => { l with errorMessage := "Invalid regex pattern: " ++ pattern ++ " - " ++ what }

/-- The characters `add_keyword` escapes with a backslash. -/
def regexSpecial (c : Char) : Bool :=
  c ∈ ['.', '^', '$', '*', '+', '?', '(', ')', '[', ']', '\x7b', '\x7d', '|', '\\']

/-- `Lexer::add_keyword`: a rule, not skipped, for the keyword with its special characters
escaped, anchored by `^` and `$`. -/
def addKeyword (l : Lexer) (keyword : String) (type : TokenType) : Lexer :=
  addRule compile l type
    ("^" ++ String.mk (keyword.toList.flatMap fun c => if regexSpecial c then ['\\', c] else [c]) ++
      "$") false

end

/-- `Lexer::reset`. -/
def reset (l : Lexer) : Lexer :=
  { l with currentPos := 0, currentLine := 1, currentColumn := 1, errorMessage := "" }

/-- `Lexer::set_input`. -/
def setInput (l : Lexer) (input : String) : Lexer := { l with input := input.toList }.reset

/-- `Lexer::at_end`. -/
def atEnd (l : Lexer) : Bool := decide (l.input.length ≤ l.currentPos)

/-- `Lexer::current_char`: the character at the position, `'\0'` at the end. -/
def currentChar (l : Lexer) : Char := l.input.getD l.currentPos (Char.ofNat 0)

/-- `Lexer::update_position`. -/
def updatePosition (l : Lexer) (c : Char) : Lexer :=
  if c = '\n' then { l with currentLine := l.currentLine + 1, currentColumn := 1 }
  else { l with currentColumn := l.currentColumn + 1 }

/-- One character read: `update_position(c); current_pos_++`. -/
def consume (l : Lexer) (c : Char) : Lexer :=
  { l.updatePosition c with currentPos := l.currentPos + 1 }

/-- `Lexer::advance`. -/
def advance (l : Lexer) : Lexer := if l.atEnd then l else l.consume l.currentChar

/-- The first rule whose regex matches at the start of `s`, with the length of its match. -/
def firstMatch (s : List Char) : List LexerRule → Option (LexerRule × Nat)
  | [] => none
  | r :: rs =>
    match r.regex.matchAt s with
    | some n => some (r, n)
    | none => firstMatch s rs

/-- The EOF token at the lexer's position. -/
def eofToken (l : Lexer) : Token := ⟨.eofToken, "", l.currentLine, l.currentColumn, l.currentPos⟩

/-- `Lexer::next_token`, with at most `fuel` nested calls: one more for each skipped match. -/
def nextToken : Nat → Lexer → Option (Token × Lexer)
  | 0, _ => none
  | fuel + 1, l =>
    if l.atEnd then some (l.eofToken, l)
    else
      let remaining := l.input.drop l.currentPos
      match firstMatch remaining l.rules with
      | some (rule, n) =>
        let text := remaining.take n
        let l' := text.foldl consume l
        if rule.skip then nextToken fuel l'
        else some (⟨rule.type, String.mk text, l.currentLine, l.currentColumn, l.currentPos⟩, l')
      | none =>
        let c := l.currentChar
        some (⟨.errorToken, String.mk [c], l.currentLine, l.currentColumn, l.currentPos⟩,
          { l.advance with
            errorMessage := "Unexpected character: '" ++ String.mk [c] ++ "' at line " ++
              Nat.repr l.currentLine ++ ", column " ++ Nat.repr l.currentColumn })

/-- `Lexer::peek_token`: the next token, with the position, line, column and error message
restored. -/
def peekToken (fuel : Nat) (l : Lexer) : Option (Token × Lexer) :=
  (nextToken fuel l).map fun r =>
    (r.1, { r.2 with
      currentPos := l.currentPos
      currentLine := l.currentLine
      currentColumn := l.currentColumn
      errorMessage := l.errorMessage })

/-- `n` successive calls of `next_token`, each with `fuel` nested calls. -/
def calls (fuel : Nat) : Nat → Lexer → Option (List Token)
  | 0, _ => some []
  | n + 1, l => (nextToken fuel l).bind fun (tok, l') => (calls fuel n l').map (tok :: ·)

end Lexer

@[simp] theorem TokenStream.take_nil (n : Nat) (e : Token) :
    TokenStream.take n ⟨[], e⟩ = List.replicate n e := by
  induction n with
  | zero => rfl
  | succ n ih => simp [TokenStream.take, TokenStream.next, ih, List.replicate_succ]

/-! ## Line and column -/

/-- The line after the characters `s`: one more than the newlines among them. -/
def lineAfter (s : List Char) : Nat := s.count '\n' + 1

/-- The column after the characters `s`: one more than the characters after the last newline. -/
def columnAfter (s : List Char) : Nat := (s.reverse.takeWhile (· != '\n')).length + 1

theorem lineAfter_append_singleton (s : List Char) (c : Char) :
    lineAfter (s ++ [c]) = if c = '\n' then lineAfter s + 1 else lineAfter s := by
  by_cases hc : c = '\n' <;> simp [lineAfter, hc, List.count_singleton]

theorem columnAfter_append_singleton (s : List Char) (c : Char) :
    columnAfter (s ++ [c]) = if c = '\n' then 1 else columnAfter s + 1 := by
  by_cases hc : c = '\n' <;> simp [columnAfter, hc, List.takeWhile_cons]

namespace Lexer

@[simp] theorem consume_rules (l : Lexer) (c : Char) : (l.consume c).rules = l.rules := by
  unfold consume updatePosition; split <;> rfl

@[simp] theorem consume_input (l : Lexer) (c : Char) : (l.consume c).input = l.input := by
  unfold consume updatePosition; split <;> rfl

@[simp] theorem consume_currentPos (l : Lexer) (c : Char) :
    (l.consume c).currentPos = l.currentPos + 1 := rfl

@[simp] theorem consume_errorMessage (l : Lexer) (c : Char) :
    (l.consume c).errorMessage = l.errorMessage := by
  unfold consume updatePosition; split <;> rfl

theorem consume_currentLine (l : Lexer) (c : Char) :
    (l.consume c).currentLine = if c = '\n' then l.currentLine + 1 else l.currentLine := by
  unfold consume updatePosition; split <;> rfl

theorem consume_currentColumn (l : Lexer) (c : Char) :
    (l.consume c).currentColumn = if c = '\n' then 1 else l.currentColumn + 1 := by
  unfold consume updatePosition; split <;> rfl

@[simp] theorem foldl_consume_rules (t : List Char) (l : Lexer) :
    (t.foldl consume l).rules = l.rules := by
  induction t generalizing l <;> simp [*]

@[simp] theorem foldl_consume_input (t : List Char) (l : Lexer) :
    (t.foldl consume l).input = l.input := by
  induction t generalizing l <;> simp [*]

/-- The position lies within the input, and the line and column are those after the characters
before it. -/
structure Coords (l : Lexer) : Prop where
  le : l.currentPos ≤ l.input.length
  line : l.currentLine = lineAfter (l.input.take l.currentPos)
  column : l.currentColumn = columnAfter (l.input.take l.currentPos)

theorem coords_setInput (l : Lexer) (input : String) : Coords (l.setInput input) :=
  ⟨Nat.zero_le _, rfl, rfl⟩

theorem Coords.withErrorMessage {l : Lexer} (h : Coords l) (m : String) :
    Coords { l with errorMessage := m } :=
  ⟨h.le, h.line, h.column⟩

/-- Reading the character at the position keeps the line and column right. -/
theorem Coords.consume_getElem {l : Lexer} (h : Coords l) (hlt : l.currentPos < l.input.length) :
    Coords (l.consume l.input[l.currentPos]) := by
  have htake : l.input.take (l.currentPos + 1) = l.input.take l.currentPos ++ [l.input[l.currentPos]] := by
    rw [List.take_succ, List.getElem?_eq_getElem hlt]; rfl
  refine ⟨by simpa using hlt, ?_, ?_⟩
  · rw [consume_currentLine, consume_input, consume_currentPos, htake, lineAfter_append_singleton,
      h.line]
  · rw [consume_currentColumn, consume_input, consume_currentPos, htake,
      columnAfter_append_singleton, h.column]

/-- Reading a prefix of the remaining input keeps the line and column right, and moves the
position past it. -/
theorem Coords.foldl_consume (t : List Char) : ∀ {l : Lexer}, Coords l →
    t <+: l.input.drop l.currentPos →
    Coords (t.foldl consume l) ∧ (t.foldl consume l).currentPos = l.currentPos + t.length := by
  induction t with
  | nil => intro l h _; exact ⟨h, rfl⟩
  | cons c t ih =>
    intro l h ht
    have hlt : l.currentPos < l.input.length := by
      have := ht.length_le
      simp only [List.length_cons, List.length_drop] at this
      omega
    rw [List.drop_eq_getElem_cons hlt, List.cons_prefix_cons] at ht
    obtain ⟨rfl, ht⟩ := ht
    obtain ⟨h', hpos⟩ := ih (h.consume_getElem hlt) (by simpa using ht)
    exact ⟨h', by simp [hpos]; omega⟩

/-- The position of a token lies within the input, and its line and column are those after the
characters before it. -/
def TokenAt (input : List Char) (tok : Token) : Prop :=
  tok.position ≤ input.length ∧ tok.line = lineAfter (input.take tok.position) ∧
    tok.column = columnAfter (input.take tok.position)

theorem Coords.tokenAt {l : Lexer} (h : Coords l) (type : TokenType) (value : String) :
    TokenAt l.input ⟨type, value, l.currentLine, l.currentColumn, l.currentPos⟩ :=
  ⟨h.le, h.line, h.column⟩

theorem atEnd_eq_false {l : Lexer} : l.atEnd = false ↔ l.currentPos < l.input.length := by
  simp [atEnd]

/-- The token's lexeme is the input from its position on: the position is the offset of the
lexeme's first character. -/
def LexemeAt (input : List Char) (tok : Token) : Prop := tok.value.data <+: input.drop tok.position

/-- Frame lemma: `next_token` changes neither the rules nor the input. -/
theorem nextToken_frame : ∀ {fuel : Nat} {l l' : Lexer} {tok : Token},
    nextToken fuel l = some (tok, l') → l'.rules = l.rules ∧ l'.input = l.input
  | 0, _, _, _, h => by cases h
  | fuel + 1, l, l', tok, h => by
    unfold nextToken at h
    split at h
    · cases h; exact ⟨rfl, rfl⟩
    dsimp only at h
    split at h
    · split at h
      · simpa using nextToken_frame h
      · cases h; simp
    · cases h; simp [advance, apply_ite]

/-- What a call of `next_token` from `l` that returns `tok` and leaves `l'` does, whatever the
rules: the rules and the input stay, the line and column stay right, and the token is the input at
its position, with the line and column of that position. -/
structure Emits (l : Lexer) (tok : Token) (l' : Lexer) : Prop where
  rules : l'.rules = l.rules
  input : l'.input = l.input
  coords : Coords l'
  token : TokenAt l.input tok
  lexeme : LexemeAt l.input tok

/-- Step lemma: every token `next_token` returns from a lexer whose line and column are right is
at its right coordinates, and the line and column stay right: through the match loop, the skip
recursion and the error path, for any rules. -/
theorem nextToken_emits : ∀ {fuel : Nat} {l l' : Lexer} {tok : Token}, Coords l →
    nextToken fuel l = some (tok, l') → Emits l tok l'
  | 0, _, _, _, _, h => by cases h
  | fuel + 1, l, l', tok, hc, h => by
    have hframe := nextToken_frame h
    unfold nextToken at h
    split at h
    · cases h; exact ⟨rfl, rfl, hc, hc.tokenAt _ _, List.nil_prefix⟩
    rename_i hend
    have hlt := atEnd_eq_false.mp (Bool.eq_false_iff.mpr hend)
    dsimp only at h
    split at h
    · rename_i rule n _
      obtain ⟨hc₁, -⟩ := hc.foldl_consume ((l.input.drop l.currentPos).take n) (List.take_prefix _ _)
      split at h
      · have he := nextToken_emits hc₁ h
        exact ⟨hframe.1, hframe.2, he.coords, by simpa using he.token, by simpa using he.lexeme⟩
      · cases h
        exact ⟨hframe.1, hframe.2, hc₁, hc.tokenAt _ _, List.take_prefix _ _⟩
    · cases h
      have hadv : l.advance = l.consume l.input[l.currentPos] := by
        simp [advance, hend, currentChar, hlt]
      have hc₁ := hc.consume_getElem hlt
      refine ⟨hframe.1, hframe.2, ?_, hc.tokenAt _ _, ?_⟩
      · rw [hadv]; exact hc₁.withErrorMessage _
      · show [l.currentChar] <+: l.input.drop l.currentPos
        rw [List.drop_eq_getElem_cons hlt, List.cons_prefix_cons]
        exact ⟨by simp [currentChar, hlt], List.nil_prefix⟩

/-- No rule matches the empty string. -/
def NonEmptyMatches (rules : List LexerRule) : Prop :=
  ∀ r ∈ rules, ∀ s n, r.regex.matchAt s = some n → 0 < n

theorem firstMatch_mem {s : List Char} {r : LexerRule} {n : Nat} :
    ∀ {rules : List LexerRule}, firstMatch s rules = some (r, n) → r ∈ rules ∧ r.regex.matchAt s = some n
  | [], h => by cases h
  | r' :: rs, h => by
    unfold firstMatch at h
    split at h
    · cases h; exact ⟨List.mem_cons_self _ _, ‹_›⟩
    · exact (firstMatch_mem h).imp (List.mem_cons_of_mem _) id

/-- What a call of `next_token` from `l` that returns `tok` and leaves `l'` does: the rules and the
input stay; the line and column stay right; the token's coordinates are right; at the end the call
returns the EOF token and changes nothing; before the end it moves the position forward and
returns either the EOF token at the end (after skipped matches) or a token from before the end,
of a rule's kind or an error token. -/
structure Call (l : Lexer) (tok : Token) (l' : Lexer) : Prop where
  rules : l'.rules = l.rules
  input : l'.input = l.input
  coords : Coords l'
  token : TokenAt l.input tok
  eof : l.atEnd = true → tok = l.eofToken ∧ l' = l
  progress : l.atEnd = false → l.currentPos < l'.currentPos ∧
    ((l'.atEnd = true ∧ tok = l'.eofToken) ∨ (tok.position < l.input.length ∧
      (tok.type = .errorToken ∨ ∃ r ∈ l.rules, r.type = tok.type)))

/-- Step lemma: when no rule matches the empty string, `next_token` returns, given more fuel than
characters left, and does what `Call` says. -/
theorem nextToken_call {rules : List LexerRule} (hne : NonEmptyMatches rules) :
    ∀ (fuel : Nat) (l : Lexer), l.rules = rules → Coords l →
      l.input.length - l.currentPos < fuel → ∃ tok l', nextToken fuel l = some (tok, l') ∧ Call l tok l'
  | 0, _, _, _, hf => absurd hf (Nat.not_lt_zero _)
  | fuel + 1, l, hr, h, hf => by
    by_cases hend : l.atEnd = true
    · exact ⟨l.eofToken, l, by simp [nextToken, hend], rfl, rfl, h, h.tokenAt _ _, fun _ => ⟨rfl, rfl⟩,
        fun h' => absurd h' (by simp [hend])⟩
    have hlt := atEnd_eq_false.mp (Bool.eq_false_iff.mpr hend)
    cases hm : firstMatch (l.input.drop l.currentPos) l.rules with
    | none =>
      have hc : l.currentChar = l.input[l.currentPos] := by simp [currentChar, hlt]
      have hadv : l.advance = l.consume l.input[l.currentPos] := by simp [advance, hend, hc]
      have h' := h.consume_getElem hlt
      refine ⟨_, _, by rw [nextToken, if_neg hend]; dsimp only; rw [hm], by simp [hadv], by simp [hadv], ?_,
        h.tokenAt _ _, fun h' => absurd h' hend, fun _ => ⟨by simp [hadv], .inr ⟨hlt, .inl rfl⟩⟩⟩
      simp only [hadv]
      exact h'.withErrorMessage _
    | some rn =>
      obtain ⟨rule, n⟩ := rn
      obtain ⟨hrule, hmatch⟩ := firstMatch_mem hm
      have hpos := hne rule (hr ▸ hrule) _ _ hmatch
      have hle := rule.regex.le_length _ _ hmatch
      obtain ⟨h₁, hpos₁⟩ := h.foldl_consume ((l.input.drop l.currentPos).take n)
        (List.take_prefix _ _)
      have hlen : ((l.input.drop l.currentPos).take n).length = n := by
        simp only [List.length_take, List.length_drop] at hle ⊢; omega
      rw [hlen] at hpos₁
      cases hskip : rule.skip with
      | false =>
        refine ⟨_, _, by rw [nextToken, if_neg hend]; dsimp only; rw [hm]; dsimp only; rw [hskip]; rfl,
          by simp, by simp, h₁, h.tokenAt _ _,
          fun h' => absurd h' hend, fun _ => ⟨by omega, .inr ⟨hlt, .inr ⟨rule, hrule, rfl⟩⟩⟩⟩
      | true =>
        obtain ⟨tok, l', hcall, hc⟩ := nextToken_call hne fuel _ (by simp [hr]) h₁
          (by simp only [foldl_consume_input]; omega)
        refine ⟨tok, l', by simp [nextToken, hend, hm, hskip, hcall], by simp [hc.rules],
          by simp [hc.input], hc.coords, by simpa using hc.token, fun h' => absurd h' hend,
          fun _ => ?_⟩
        by_cases hend₁ : (((l.input.drop l.currentPos).take n).foldl consume l).atEnd = true
        · obtain ⟨rfl, rfl⟩ := hc.eof hend₁
          exact ⟨by omega, .inl ⟨hend₁, rfl⟩⟩
        · obtain ⟨hlt', hcases⟩ := hc.progress (Bool.eq_false_iff.mpr hend₁)
          refine ⟨by omega, hcases.imp_right fun ⟨hp, hk⟩ => ⟨by simpa using hp, ?_⟩⟩
          simpa using hk

/-- `peek_token` returns the token `next_token` would, and leaves the lexer as it was. -/
theorem peekToken_eq_map (fuel : Nat) (l : Lexer) :
    peekToken fuel l = (nextToken fuel l).map fun r => (r.1, l) := by
  cases h : nextToken fuel l with
  | none => simp [peekToken, h]
  | some r =>
    obtain ⟨hr, hi⟩ := nextToken_frame h
    simp only [peekToken, h, Option.map_some', hr, hi]

/-- At the end of the input `next_token` returns the EOF token at the position and changes
nothing. -/
theorem nextToken_of_atEnd {l : Lexer} (hend : l.atEnd = true) (fuel : Nat) :
    nextToken (fuel + 1) l = some (l.eofToken, l) := by
  simp [nextToken, hend]

/-- At the end of the input every call returns the EOF token at the end. -/
theorem calls_of_atEnd {fuel : Nat} (hfuel : 0 < fuel) {l : Lexer} (hend : l.atEnd = true) :
    ∀ n, calls fuel n l = some (List.replicate n l.eofToken)
  | 0 => rfl
  | n + 1 => by
    obtain ⟨k, rfl⟩ : ∃ k, fuel = k + 1 := ⟨fuel - 1, by omega⟩
    simp [calls, nextToken_of_atEnd hend, calls_of_atEnd hfuel hend n, List.replicate_succ]

/-- The EOF token at the end of the input. -/
def endToken (input : List Char) : Token :=
  ⟨.eofToken, "", lineAfter input, columnAfter input, input.length⟩

theorem Coords.eofToken_eq {l : Lexer} (h : Coords l) (hend : l.atEnd = true) :
    l.eofToken = endToken l.input := by
  have hpos : l.currentPos = l.input.length := le_antisymm h.le (by simpa [atEnd] using hend)
  simp [eofToken, endToken, h.line, h.column, hpos]

/-! ## Any sequence of calls -/

/-- A call a client makes on the lexer: `next_token` or `peek_token`. -/
inductive Request
  | next
  | peek

/-- One call, with at most `fuel` nested calls of `next_token`. -/
def call (fuel : Nat) : Request → Lexer → Option (Token × Lexer)
  | .next, l => nextToken fuel l
  | .peek, l => peekToken fuel l

/-- The calls `rs` one after another: the tokens they return and the lexer after them, when every
call returns. -/
def callAll (fuel : Nat) : List Request → Lexer → Option (List Token × Lexer)
  | [], l => some ([], l)
  | r :: rs, l => (call fuel r l).bind fun (tok, l') =>
    (callAll fuel rs l').map fun (toks, l'') => (tok :: toks, l'')

theorem call_emits {fuel : Nat} {l l' : Lexer} {tok : Token} (hc : Coords l) :
    ∀ {r : Request}, call fuel r l = some (tok, l') → Emits l tok l'
  | .next, h => nextToken_emits hc h
  | .peek, h => by
    rw [call, peekToken_eq_map] at h
    obtain ⟨⟨tok', l''⟩, hn, heq⟩ := Option.map_eq_some'.mp h
    cases heq
    have he := nextToken_emits hc hn
    exact ⟨rfl, rfl, hc, he.token, he.lexeme⟩

/-- Run lemma: along any sequence of calls from a lexer whose line and column are right, they stay
right, and every token returned is at its right coordinates in the input. -/
theorem callAll_emits {fuel : Nat} : ∀ {rs : List Request} {l l' : Lexer} {toks : List Token},
    Coords l → callAll fuel rs l = some (toks, l') →
      Coords l' ∧ l'.input = l.input ∧ ∀ tok ∈ toks, TokenAt l.input tok ∧ LexemeAt l.input tok
  | [], _, _, _, hc, h => by cases h; exact ⟨hc, rfl, by simp⟩
  | r :: rs, l, l', toks, hc, h => by
    obtain ⟨⟨tok, l₁⟩, h₁, h⟩ := Option.bind_eq_some.mp h
    obtain ⟨⟨toks', l₂⟩, h₂, heq⟩ := Option.map_eq_some'.mp h
    cases heq
    have he := call_emits hc h₁
    obtain ⟨hc', hin, htoks⟩ := callAll_emits he.coords h₂
    refine ⟨hc', hin.trans he.input, ?_⟩
    simp only [List.mem_cons, forall_eq_or_imp]
    exact ⟨⟨he.token, he.lexeme⟩, fun t ht => he.input ▸ htoks t ht⟩

/-- After `set_input`, for any rules and any sequence of `next_token` and `peek_token` calls,
every token returned has as position the offset in the input of its lexeme's first character, as
line one more than the newlines before it, and as column one more than the characters between the
last of them (or the start) and it. `peek_token` returns the token of the `next_token` call that
follows it, and leaves the lexer as it was; at the end of the input `next_token` returns the EOF
token and changes nothing. -/
theorem token_coordinates_exact (l : Lexer) (input : String) (fuel : Nat) (rs : List Request)
    {toks : List Token} {l' : Lexer} (h : callAll fuel rs (l.setInput input) = some (toks, l')) :
    (∀ tok ∈ toks, tok.position ≤ input.toList.length ∧
      tok.value.toList <+: input.toList.drop tok.position ∧
      tok.line = lineAfter (input.toList.take tok.position) ∧
      tok.column = columnAfter (input.toList.take tok.position)) ∧
    (∀ l₀ : Lexer, peekToken fuel l₀ = (nextToken fuel l₀).map fun r => (r.1, l₀)) ∧
    ∀ l₀ : Lexer, l₀.atEnd = true → nextToken (fuel + 1) l₀ = some (l₀.eofToken, l₀) := by
  refine ⟨fun tok htok => ?_, peekToken_eq_map fuel, fun l₀ hend => nextToken_of_atEnd hend fuel⟩
  obtain ⟨⟨hle, hline, hcol⟩, hlex⟩ := (callAll_emits (coords_setInput l input) h).2.2 tok htok
  exact ⟨hle, hlex, hline, hcol⟩

theorem token_coordinates_exact_newline :
    callAll 1 [.next, .peek, .next, .next, .next] (Lexer.new.setInput "a\nb") =
      some ([⟨.errorToken, "a", 1, 1, 0⟩, ⟨.errorToken, "\n", 1, 2, 1⟩, ⟨.errorToken, "\n", 1, 2, 1⟩,
        ⟨.errorToken, "b", 2, 1, 2⟩, ⟨.eofToken, "", 2, 2, 3⟩],
        ⟨[], "a\nb".toList, 3, 2, 2, "Unexpected character: 'b' at line 2, column 1"⟩) ∧
    ((∀ tok ∈ [(⟨.errorToken, "a", 1, 1, 0⟩ : Token), ⟨.errorToken, "\n", 1, 2, 1⟩,
        ⟨.errorToken, "\n", 1, 2, 1⟩, ⟨.errorToken, "b", 2, 1, 2⟩, ⟨.eofToken, "", 2, 2, 3⟩],
        tok.position ≤ "a\nb".toList.length ∧ tok.value.toList <+: "a\nb".toList.drop tok.position ∧
        tok.line = lineAfter ("a\nb".toList.take tok.position) ∧
        tok.column = columnAfter ("a\nb".toList.take tok.position)) ∧
      (∀ l₀ : Lexer, peekToken 1 l₀ = (nextToken 1 l₀).map fun r => (r.1, l₀)) ∧
      ∀ l₀ : Lexer, l₀.atEnd = true → nextToken (1 + 1) l₀ = some (l₀.eofToken, l₀)) :=
  ⟨rfl, token_coordinates_exact Lexer.new "a\nb" 1 [.next, .peek, .next, .next, .next] rfl⟩

/-! ## Rules that match the empty string -/

section EmptyMatch

variable {l : Lexer} {r : LexerRule} (hend : l.atEnd = false)
  (hm : firstMatch (l.input.drop l.currentPos) l.rules = some (r, 0))
include hend hm

/-- When the first rule to match is a skip rule and matches the empty string, `next_token` calls
itself on the same lexer: no amount of fuel is enough. -/
theorem nextToken_eq_none_of_empty_skip (hskip : r.skip = true) : ∀ fuel, nextToken fuel l = none
  | 0 => rfl
  | fuel + 1 => by
    simp [nextToken, hend, hm, hskip, nextToken_eq_none_of_empty_skip hskip fuel]

/-- When the first rule to match is not skipped and matches the empty string, every call of
`next_token` returns the same empty token and leaves the lexer where it was. -/
theorem calls_of_empty_match (hskip : r.skip = false) (fuel : Nat) :
    ∀ n, calls (fuel + 1) n l =
      some (List.replicate n ⟨r.type, "", l.currentLine, l.currentColumn, l.currentPos⟩)
  | 0 => rfl
  | n + 1 => by
    simp [calls, nextToken, hend, hm, hskip, calls_of_empty_match hskip fuel n, List.replicate_succ]

end EmptyMatch

/-- The regex `[0-9]*`: the run of digits at position 0, possibly empty. -/
def digitsStar : Pattern :=
  ⟨fun s => some (s.takeWhile Char.isDigit).length, fun _ _ h => by
    cases h; exact (List.takeWhile_prefix _).length_le⟩

/-- One rule of kind `NUMBER` for `[0-9]*`, skipped when `skip`, on the input `"a"`. -/
def digitsLexer (skip : Bool) : Lexer :=
  (Lexer.new.addRule (fun _ => .ok digitsStar) .number "[0-9]*" skip).setInput "a"

/-- With `[0-9]*` as a skip rule, `next_token` on `"a"` never returns; as a rule that is not
skipped, every call returns an empty `NUMBER` token at position 0, never the EOF token. -/
theorem nextToken_no_progress_on_empty_match :
    (∀ fuel, nextToken fuel (digitsLexer true) = none) ∧
    ∀ fuel n, calls (fuel + 1) n (digitsLexer false) =
      some (List.replicate n ⟨.number, "", 1, 1, 0⟩) :=
  ⟨nextToken_eq_none_of_empty_skip (l := digitsLexer true) rfl rfl rfl,
    calls_of_empty_match (l := digitsLexer false) rfl rfl rfl⟩

end Lexer

end Lalr1
