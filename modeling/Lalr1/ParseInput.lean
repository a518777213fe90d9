import Lalr1.Regex
import Lalr1.Completeness

/-!
# Parsing an input: `LALR1Parser::parse`

`LALR1Parser::parse(std::unique_ptr<Lexer>)` (`parser.cpp`) hands a lexer to `parse_internal`,
and `parse(const std::string&)` first builds the lexer of `create_calculator_lexer` (`lexer.cpp`)
and sets its input. `parse_internal` calls `next_token` once before its loop and once per shift,
and reads an EOF token as `$`, which it never shifts: the tokens it can read are those `next_token`
returns up to the first EOF token (`Lexer.tokensFrom`). When no rule matches the empty string and
none has the kind `EOF_TOKEN`, these are the tokens of the whole input, each at its coordinates,
followed by the EOF token at the end, and the driver reading the lexer is `parse_internal` reading
that token stream (`tokensFrom_spec`).

When the rules skip exactly the characters of a set of blanks (`SkipsBlanks`: a skip rule matches
only blanks, another rule none, and a rule matches wherever a blank comes), the tokens' lexemes,
read left to right, are the input without its blanks: no character is lost or read twice
(`tokensFrom_filter`, from the step lemma `nextToken_segment`).

`create_calculator_lexer` adds sixteen rules whose patterns lie in the fragment of
`Lalr1.Regex`; none matches the empty string, and they skip space, tab and newline and read no
blank otherwise (`calculatorLexer_skipsBlanks`). So `parse(input)`, whatever the parser, is
`parse_internal` on one token stream: the calculator lexer's tokens of the input, at their
coordinates, then EOF at the end; their lexemes spell the input without its blanks
(`parse_reads_input`). The soundness and completeness of `parse_internal` on token streams then
hold of `parse` on texts.
-/

namespace Lalr1

namespace Lexer

@[simp] theorem foldl_consume_currentPos (t : List Char) (l : Lexer) :
    (t.foldl consume l).currentPos = l.currentPos + t.length := by
  induction t generalizing l with
  | nil => rfl
  | cons c t ih => simp only [List.foldl_cons, ih, consume_currentPos, List.length_cons]; omega

/-! ## The tokens `parse_internal` can read -/

/-- The tokens `next_token` returns from `l` until it returns an EOF token, and that EOF token,
each call with `l.input.length + 1` nested calls; `none` when `n` calls do not reach it. -/
def tokensFrom : Nat → Lexer → Option TokenStream
  | 0, _ => none
  | n + 1, l =>
    (nextToken (l.input.length + 1) l).bind fun (tok, l') =>
      if tok.isEof then some ⟨[], tok⟩ else (tokensFrom n l').map fun ts => ⟨tok :: ts.pending, ts.eof⟩

/-- The tokens `parse_internal` can read from a lexer: one call per character left and one more. -/
def tokens (l : Lexer) : Option TokenStream := tokensFrom (l.input.length - l.currentPos + 1) l

/-- A call returns an EOF token only at the end of the input, and then leaves the lexer at the
end, when no rule has the kind `EOF_TOKEN`. -/
theorem Call.eof_of_isEof {rules : List LexerRule} (heof : ∀ r ∈ rules, r.type ≠ .eofToken)
    {l l' : Lexer} {tok : Token} (hr : l.rules = rules) (hc : Call l tok l')
    (heofTok : tok.isEof = true) : tok = l'.eofToken ∧ l'.atEnd = true := by
  cases hend : l.atEnd
  · rcases (hc.progress hend).2 with h | ⟨-, hkind⟩
    · exact ⟨h.2, h.1⟩
    · have htype : tok.type = .eofToken := by simpa [Token.isEof] using heofTok
      rcases hkind with h | ⟨r, hr', h⟩
      · rw [htype] at h; cases h
      · exact absurd (h.trans htype) (heof r (hr ▸ hr'))
  · obtain ⟨rfl, rfl⟩ := hc.eof hend
    exact ⟨rfl, hend⟩

section Run

variable {rules : List LexerRule} (hne : NonEmptyMatches rules) (heof : ∀ r ∈ rules, r.type ≠ .eofToken)
include hne heof

/-- Run lemma: from a lexer whose line and column are right, `tokensFrom` with one call per
character left returns the tokens before the end, each at its coordinates and not an EOF token,
then the EOF token at the end of the input; and successive calls of `next_token` return exactly
these tokens, then that EOF token forever. -/
theorem tokensFrom_spec : ∀ (n : Nat) {l : Lexer}, l.rules = rules → Coords l →
    l.input.length - l.currentPos < n →
      ∃ ts, tokensFrom n l = some ts ∧ ts.eof = endToken l.input ∧
        (∀ tok ∈ ts.pending, TokenAt l.input tok ∧ LexemeAt l.input tok ∧ tok.isEof = false) ∧
        ∀ k, calls (l.input.length + 1) k l = some (ts.take k)
  | 0, _, _, _, hf => absurd hf (Nat.not_lt_zero _)
  | n + 1, l, hr, h, hf => by
    obtain ⟨tok, l', hcall, hc⟩ := nextToken_call hne (l.input.length + 1) l hr h (by omega)
    have he := nextToken_emits h hcall
    have hcalls : ∀ k, calls (l.input.length + 1) (k + 1) l =
        (calls (l'.input.length + 1) k l').map (tok :: ·) := by
      intro k; simp [calls, hcall, hc.input]
    by_cases heofTok : tok.isEof = true
    · obtain ⟨rfl, hend'⟩ := hc.eof_of_isEof heof hr heofTok
      refine ⟨⟨[], l'.eofToken⟩, by simp [tokensFrom, hcall, heofTok], by
        rw [hc.coords.eofToken_eq hend', hc.input], by simp, ?_⟩
      rintro (_ | k)
      · rfl
      · rw [hcalls, calls_of_atEnd (Nat.succ_pos _) hend' k]
        simp [TokenStream.take, TokenStream.next, List.replicate_succ]
    · have hend : l.atEnd = false := by
        cases hend : l.atEnd
        · rfl
        · exact absurd (by simp [(hc.eof hend).1, eofToken, Token.isEof]) heofTok
      have hlt := (hc.progress hend).1
      have hlt' := atEnd_eq_false.mp hend
      obtain ⟨ts, hts, heofs, hpend, htake⟩ := tokensFrom_spec n (hc.rules.trans hr) hc.coords
        (by rw [hc.input]; omega)
      refine ⟨⟨tok :: ts.pending, ts.eof⟩, by simp [tokensFrom, hcall, heofTok, hts],
        by rw [heofs, hc.input], ?_, ?_⟩
      · simp only [List.mem_cons, forall_eq_or_imp]
        exact ⟨⟨he.token, he.lexeme, by simpa using heofTok⟩, fun t ht => hc.input ▸ hpend t ht⟩
      · rintro (_ | k)
        · rfl
        · rw [hcalls, htake k]
          rfl

/-- `tokens` of a lexer whose line and column are right: the run lemma from its position. -/
theorem tokens_spec {l : Lexer} (hr : l.rules = rules) (h : Coords l) :
    ∃ ts, l.tokens = some ts ∧ ts.eof = endToken l.input ∧
      (∀ tok ∈ ts.pending, TokenAt l.input tok ∧ LexemeAt l.input tok ∧ tok.isEof = false) ∧
      ∀ k, calls (l.input.length + 1) k l = some (ts.take k) :=
  tokensFrom_spec hne heof _ hr h (Nat.lt_succ_self _)

end Run

/-! ## Blanks -/

/-- What the rules do with the characters `blank` accepts: a skip rule's match is made of them and
another rule's match has none, and a rule matches wherever one of them comes. -/
structure SkipsBlanks (blank : Char → Bool) (rules : List LexerRule) : Prop where
  match_blank : ∀ r ∈ rules, ∀ s n, r.regex.matchAt s = some n → ∀ c ∈ s.take n, blank c = r.skip
  matched : ∀ c s, blank c = true → (firstMatch (c :: s) rules).isSome

theorem firstMatch_isSome_of_mem {s : List Char} {r : LexerRule} (hm : (r.regex.matchAt s).isSome) :
    ∀ {rules : List LexerRule}, r ∈ rules → (firstMatch s rules).isSome
  | r' :: rs, hr => by
    unfold firstMatch
    split
    · rfl
    · rename_i hnone
      rcases List.mem_cons.mp hr with rfl | hr
      · rw [hnone] at hm; cases hm
      · exact firstMatch_isSome_of_mem hm hr

section Blanks

variable {blank : Char → Bool} {rules : List LexerRule} (hsb : SkipsBlanks blank rules)
include hsb

/-- Step lemma: the characters a call of `next_token` reads, without the blanks, are the token's
lexeme: a skipped match is all blanks, a token's match has none, and the character of an error
token is no blank, since a rule matches every blank. -/
theorem nextToken_segment : ∀ {fuel : Nat} {l l' : Lexer} {tok : Token}, l.rules = rules →
    nextToken fuel l = some (tok, l') →
      ∃ seg, l.input.drop l.currentPos = seg ++ l.input.drop l'.currentPos ∧
        seg.filter (fun c => !blank c) = tok.value.data
  | 0, _, _, _, _, h => by cases h
  | fuel + 1, l, l', tok, hr, h => by
    unfold nextToken at h
    split at h
    · cases h; exact ⟨[], rfl, rfl⟩
    rename_i hend
    have hlt := atEnd_eq_false.mp (Bool.eq_false_iff.mpr hend)
    dsimp only at h
    split at h
    · rename_i rule n hm
      obtain ⟨hrule, hmatch⟩ := firstMatch_mem hm
      have hb := hsb.match_blank rule (hr ▸ hrule) _ _ hmatch
      have hlen : ((l.input.drop l.currentPos).take n).length = n := by
        have := rule.regex.le_length _ _ hmatch
        simp only [List.length_take, List.length_drop] at this ⊢; omega
      have hsplit : l.input.drop l.currentPos =
          (l.input.drop l.currentPos).take n ++ l.input.drop (l.currentPos + n) := by
        rw [← List.drop_drop n l.currentPos, List.take_append_drop]
      split at h
      · rename_i hskip
        obtain ⟨seg, hseg, hf⟩ := nextToken_segment (by simp [hr]) h
        simp only [foldl_consume_input, foldl_consume_currentPos, hlen] at hseg
        refine ⟨(l.input.drop l.currentPos).take n ++ seg,
          hsplit.trans (by rw [hseg, List.append_assoc]), ?_⟩
        rw [List.filter_append, hf, List.filter_eq_nil_iff.mpr fun c hc => by simp [hb c hc, hskip],
          List.nil_append]
      · rename_i hskip
        cases h
        refine ⟨(l.input.drop l.currentPos).take n, by rw [foldl_consume_currentPos, hlen]; exact hsplit, ?_⟩
        exact List.filter_eq_self.mpr fun c hc => by simp [hb c hc, hskip]
    · rename_i hm
      cases h
      have hc : l.currentChar = l.input[l.currentPos] := by simp [currentChar, hlt]
      have hadv : l.advance.currentPos = l.currentPos + 1 := by simp [advance, hend, hc]
      refine ⟨[l.input[l.currentPos]], by rw [hadv, List.drop_eq_getElem_cons hlt]; rfl, ?_⟩
      have hnb : blank l.input[l.currentPos] = false := by
        by_contra hbl
        have := hsb.matched _ (l.input.drop (l.currentPos + 1)) (by simpa using hbl)
        rw [← List.drop_eq_getElem_cons hlt, ← hr, hm] at this
        cases this
      simp [hnb, hc]

/-- Run lemma: the lexemes of the tokens `tokensFrom` returns, read left to right, are the input
from the position on without its blanks. -/
theorem tokensFrom_filter (hne : NonEmptyMatches rules) (heof : ∀ r ∈ rules, r.type ≠ .eofToken) :
    ∀ (n : Nat) {l : Lexer} {ts : TokenStream}, l.rules = rules → Coords l → tokensFrom n l = some ts →
      (l.input.drop l.currentPos).filter (fun c => !blank c) = ts.pending.flatMap (·.value.data)
  | 0, _, _, _, _, h => by cases h
  | n + 1, l, ts, hr, h, hts => by
    obtain ⟨⟨tok, l'⟩, hcall, hts⟩ := Option.bind_eq_some.mp hts
    obtain ⟨seg, hseg, hf⟩ := nextToken_segment hsb hr hcall
    obtain ⟨tok', l'', hcall', hc⟩ := nextToken_call hne (l.input.length + 1) l hr h (by omega)
    obtain ⟨rfl, rfl⟩ : tok = tok' ∧ l' = l'' := by simpa [hcall] using hcall'
    rw [hseg, List.filter_append, hf]
    dsimp only at hts
    split at hts
    · rename_i heofTok
      cases hts
      obtain ⟨rfl, hend'⟩ := hc.eof_of_isEof heof hr heofTok
      have hpos : l.input.length ≤ l'.currentPos := by simpa [hc.input, atEnd] using hend'
      simp [List.drop_eq_nil_of_le hpos, eofToken]
    · obtain ⟨ts', hts', rfl⟩ := Option.map_eq_some'.mp hts
      have := tokensFrom_filter hne heof n (hc.rules.trans hr) hc.coords hts'
      rw [hc.input] at this
      rw [this, List.flatMap_cons]

end Blanks

/-- The rules `add_rule` adds one after another: those whose pattern the regex constructor
accepts. -/
theorem foldl_addRule_rules (compile : String → Except String Pattern) :
    ∀ (rs : List (TokenType × String × Bool)) (l : Lexer),
      (rs.foldl (fun l r => l.addRule compile r.1 r.2.1 r.2.2) l).rules =
        l.rules ++ rs.flatMap fun r => match compile r.2.1 with
          | .ok P => [⟨r.1, P, r.2.2⟩]
          | .error _ => []
  | [], l => by simp
  | r :: rs, l => by
    rw [List.foldl_cons, foldl_addRule_rules compile rs, List.flatMap_cons, ← List.append_assoc]
    congr 1
    unfold addRule
    split <;> simp_all

end Lexer

/-! ## `create_calculator_lexer` -/

/-- The rules `create_calculator_lexer` adds, in order: kind, pattern, skipped. -/
def calculatorRules : List (TokenType × String × Bool) :=
  [(.whitespace, "[ \t]+", true), (.newline, "\n", true), (.number, "[0-9]+\\.?[0-9]*", false),
    (.identifier, "[a-zA-Z][a-zA-Z0-9]*", false), (.plus, "\\+", false), (.minus, "-", false),
    (.multiply, "\\*", false), (.divide, "/", false), (.power, "\\^", false),
    (.equal, "=", false), (.lessThan, "<", false), (.greaterThan, ">", false),
    (.lparen, "\\(", false), (.rparen, "\\)", false), (.comma, ",", false),
    (.semicolon, ";", false)]

/-- `create_calculator_lexer`: a new lexer with the rules added one after another. -/
def createCalculatorLexer : Lexer :=
  calculatorRules.foldl (fun l r => l.addRule Regex.compile r.1 r.2.1 r.2.2) Lexer.new

/-- The characters the two skip rules of `create_calculator_lexer` match. -/
def calculatorBlanks : List Char := [' ', '\t', '\n']

/-- Each pattern of `create_calculator_lexer` lies in the fragment, asks for a character, reads
blanks exactly when its rule is skipped, and its kind is not `EOF_TOKEN`; and each blank is
matched by one of them. -/
theorem calculatorRules_checked :
    (calculatorRules.all fun r => match Regex.parse r.2.1.toList with
      | some rg => decide (0 < Regex.minLength rg.pieces) && Regex.Fits calculatorBlanks r.2.2 rg &&
          r.1 != .eofToken
      | none => false) = true ∧
    (calculatorBlanks.all fun c => calculatorRules.any fun r => match Regex.parse r.2.1.toList with
      | some rg => rg.matchAt [c] == some 1 && !rg.anchorEnd
      | none => false) = true := by
  decide

theorem mem_createCalculatorLexer_rules {r : LexerRule} :
    r ∈ createCalculatorLexer.rules ↔
      ∃ x ∈ calculatorRules, ∃ rg, Regex.parse x.2.1.toList = some rg ∧ r = ⟨x.1, rg.toPattern, x.2.2⟩ := by
  rw [createCalculatorLexer, Lexer.foldl_addRule_rules]
  simp only [Lexer.new, List.nil_append, List.mem_flatMap]
  refine exists_congr fun x => and_congr_right fun _ => ?_
  cases hp : Regex.parse x.2.1.data <;> simp [Regex.compile, hp]

theorem calculatorRules_fit {x : TokenType × String × Bool} (hx : x ∈ calculatorRules) {rg : Regex}
    (hp : Regex.parse x.2.1.toList = some rg) :
    0 < Regex.minLength rg.pieces ∧ Regex.Fits calculatorBlanks x.2.2 rg = true ∧ x.1 ≠ .eofToken := by
  have h := List.all_eq_true.mp calculatorRules_checked.1 x hx
  rw [hp] at h
  simpa [Bool.and_eq_true, and_assoc] using h

/-- No rule of `create_calculator_lexer` matches the empty string. -/
theorem calculatorLexer_nonEmptyMatches : Lexer.NonEmptyMatches createCalculatorLexer.rules := by
  intro r hr s n hm
  obtain ⟨x, hx, rg, hp, rfl⟩ := mem_createCalculatorLexer_rules.mp hr
  exact Regex.matchAt_pos (calculatorRules_fit hx hp).1 hm

theorem calculatorLexer_type_ne_eof : ∀ r ∈ createCalculatorLexer.rules, r.type ≠ .eofToken := by
  intro r hr
  obtain ⟨x, hx, rg, hp, rfl⟩ := mem_createCalculatorLexer_rules.mp hr
  exact (calculatorRules_fit hx hp).2.2

/-- `create_calculator_lexer` skips exactly space, tab and newline: its skip rules match only
them, its other rules none, and one of its rules matches each of them. -/
theorem calculatorLexer_skipsBlanks :
    Lexer.SkipsBlanks (fun c => decide (c ∈ calculatorBlanks)) createCalculatorLexer.rules where
  match_blank r hr s n hm := by
    obtain ⟨x, hx, rg, hp, rfl⟩ := mem_createCalculatorLexer_rules.mp hr
    exact Regex.Fits.mem_iff (calculatorRules_fit hx hp).2.1 hm
  matched c s hc := by
    obtain ⟨x, hx, hmatch⟩ := List.any_eq_true.mp (List.all_eq_true.mp calculatorRules_checked.2 c
      (by simpa using hc))
    cases hp : Regex.parse x.2.1.toList with
    | none => rw [hp] at hmatch; cases hmatch
    | some rg =>
      rw [hp] at hmatch
      simp only [Bool.and_eq_true, beq_iff_eq, Bool.not_eq_true'] at hmatch
      obtain ⟨h1, hend⟩ := hmatch
      have hm := (Regex.matchPieces_sound h1).2.1
      refine Lexer.firstMatch_isSome_of_mem (r := ⟨x.1, rg.toPattern, x.2.2⟩) ?_
        (mem_createCalculatorLexer_rules.mpr ⟨x, hx, rg, hp, rfl⟩)
      exact (Regex.matchAt_isSome_iff rg (c :: s)).mpr ⟨[c], ⟨s, rfl⟩, hm, by simp [hend]⟩

/-- The tokens `parse_internal` can read from the lexer of `create_calculator_lexer` on an
input. -/
def calculatorTokens (input : String) : Option TokenStream := (createCalculatorLexer.setInput input).tokens

example : calculatorTokens "1 + 2" = some ⟨[⟨.number, "1", 1, 1, 0⟩, ⟨.plus, "+", 1, 3, 2⟩,
    ⟨.number, "2", 1, 5, 4⟩], ⟨.eofToken, "", 1, 6, 5⟩⟩ := by
  rfl

/-! ## `LALR1Parser::parse` -/

namespace LALR1Parser

/-- `LALR1Parser::parse(std::unique_ptr<Lexer>)`: `parse_internal` reading the tokens of the
lexer (`none` when a call of `next_token` does not return). -/
def parseLexer (g : Grammar) (t : ParseTable) (lexer : Lexer) (fuel : Nat) : Option ParseResult :=
  lexer.tokens.bind fun ts => parseInternal g t ts fuel

/-- `LALR1Parser::parse(const std::string&)`: `parse_internal` reading the lexer of
`create_calculator_lexer` on the input. -/
def parse (g : Grammar) (t : ParseTable) (input : String) (fuel : Nat) : Option ParseResult :=
  parseLexer g t (createCalculatorLexer.setInput input) fuel

end LALR1Parser

open LALR1Parser

/-- `parse(input)`, for any grammar and table, is `parse_internal` on one token stream: the
tokens successive calls of `next_token` return from the calculator lexer, each at its coordinates
in the input and none an EOF token, then the EOF token at the end of the input, forever. Their
lexemes, read left to right, are the input without its blanks: the lexer loses no character and
reads none twice. So every property of `parse_internal` on token streams ending in EOF tokens
holds of `parse` on texts. -/
theorem parse_reads_input (input : String) :
    ∃ ts, calculatorTokens input = some ts ∧
      (∀ g t fuel, parse g t input fuel = parseInternal g t ts fuel) ∧
      (∀ k, Lexer.calls (input.toList.length + 1) k (createCalculatorLexer.setInput input) =
        some (ts.take k)) ∧
      ts.eof = Lexer.endToken input.toList ∧ ts.eof.isEof = true ∧
      (∀ tok ∈ ts.pending, Lexer.TokenAt input.toList tok ∧ Lexer.LexemeAt input.toList tok ∧
        tok.isEof = false) ∧
      ts.pending.flatMap (·.value.data) = input.toList.filter fun c => c ∉ calculatorBlanks := by
  obtain ⟨ts, hts, heof, hpend, hcalls⟩ := Lexer.tokens_spec calculatorLexer_nonEmptyMatches
    calculatorLexer_type_ne_eof (l := createCalculatorLexer.setInput input) rfl (Lexer.coords_setInput _ _)
  have hf := Lexer.tokensFrom_filter calculatorLexer_skipsBlanks calculatorLexer_nonEmptyMatches
    calculatorLexer_type_ne_eof _ (l := createCalculatorLexer.setInput input) rfl
    (Lexer.coords_setInput _ _) hts
  refine ⟨ts, hts, fun g t fuel => by rw [parse, parseLexer, hts]; rfl, hcalls, heof,
    by rw [heof]; rfl, hpend, ?_⟩
  rw [← hf]
  simp [Lexer.setInput, Lexer.reset]

end Lalr1
