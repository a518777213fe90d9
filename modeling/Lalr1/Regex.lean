import Mathlib.Data.Char
import Lalr1.Lexer
import Lalr1.G4Parser

/-!
# The regular expressions of the lexer

`Lexer::next_token` asks of a rule's `std::regex` (ECMAScript grammar, the default) whether
`std::regex_search` on the remaining input reports a match at position 0, and how long it is. The
patterns the library writes itself (`create_calculator_lexer`, `add_keyword`) lie in a fragment
of that grammar: a sequence of single-character atoms (a character, an escaped syntax character,
a bracket expression, `\d`, `\s`, `\w` or `.`), each with the greedy quantifier `*`, `+` or `?` or
with none, between an optional `^` and an optional `$`.

`Regex.parse` reads a pattern of the fragment, and gives `none` outside it (a group, an
alternation, a bounded or lazy quantifier, an anchor elsewhere, an escape it does not list).
`Regex.matchAt` is the backtracking search of ECMAScript on such a pattern: a greedy quantifier on
a single-character atom first takes the longest run of characters the atom accepts, then gives
them back one at a time until the rest of the pattern matches (`countDown`). `regex_search`
reports the leftmost match, and a match at position 0 is leftmost, so the match reported there is
the first this search finds; `^` changes nothing at position 0, and `$` matches only at the end
of the text (no `multiline` flag is set). Character classes are those of the C locale.

What the search gives: its match is a prefix of the text in the language of the pattern
(`matchPieces_sound`), and it finds one whenever the language has a prefix of the text
(`matchPieces_complete`). So a pattern whose pieces all ask for a character never matches the
empty string (`matchAt_pos`). `add_keyword` anchors its pattern at both ends, so its rule matches
the remaining input only when that is the keyword itself (`addKeyword_matches_only_rest`).
-/

namespace Lalr1

namespace Regex

/-! ## The fragment -/

/-- A single-character atom. A bracket expression is a list of ranges, `a` being `a-a`, negated
by a leading `^`. -/
inductive Atom
  | char (c : Char)
  | cls (negated : Bool) (ranges : List (Char × Char))
  | digit
  | space
  | word
  | any
  deriving DecidableEq, Repr

/-- The characters an atom accepts. -/
def Atom.test : Atom → Char → Bool
  | .char c, d => d == c
  | .cls negated ranges, d => (ranges.any fun r => r.1 ≤ d && d ≤ r.2) != negated
  | .digit, d => d.isDigit
  | .space, d => G4Parser.isSpace d
  | .word, d => G4Parser.isWordChar d
  | .any, d => !G4Parser.isLineTerminator d

/-- A quantifier: none (exactly once), `?`, `*` or `+`, all greedy. -/
inductive Quant
  | one
  | opt
  | star
  | plus
  deriving DecidableEq, Repr

/-- The fewest repetitions a quantifier allows. -/
def Quant.lo : Quant → Nat
  | .one | .plus => 1
  | .opt | .star => 0

/-- The most repetitions a quantifier allows, `none` for no bound. -/
def Quant.hi : Quant → Option Nat
  | .one | .opt => some 1
  | .star | .plus => none

/-- The numbers of repetitions a quantifier allows. -/
def Quant.Allows (q : Quant) (n : Nat) : Prop := q.lo ≤ n ∧ ∀ h ∈ q.hi, n ≤ h

/-- An atom with its quantifier. -/
structure Piece where
  atom : Atom
  quant : Quant
  deriving DecidableEq, Repr

end Regex

/-- A pattern of the fragment: whether it starts with `^`, its pieces, whether it ends with `$`. -/
structure Regex where
  anchorStart : Bool
  pieces : List Regex.Piece
  anchorEnd : Bool
  deriving DecidableEq, Repr

namespace Regex

/-! ## Reading a pattern -/

/-- The atom of an escape `\c`: a class, a control character, or `c` itself when it is a syntax
character, `/` or `-`. -/
def escapeAtom (c : Char) : Option Atom :=
  if c = 'd' then some .digit
  else if c = 's' then some .space
  else if c = 'w' then some .word
  else if c = 'n' then some (.char '\n')
  else if c = 't' then some (.char '\t')
  else if c = 'r' then some (.char '\r')
  else if Lexer.regexSpecial c || c = '/' || c = '-' then some (.char c)
  else none

/-- The ranges of a bracket expression up to its `]`, and the text after it. `a-b` is a range
(an error when `b < a`), a `-` before the `]` is itself, and a backslash escapes a syntax
character or `-`. -/
def classRanges : List Char → Option (List (Char × Char) × List Char)
  | [] => none
  | ']' :: rest => some ([], rest)
  | ['\\'] => none
  | '\\' :: c :: rest =>
    if Lexer.regexSpecial c || c = '-' then (classRanges rest).map fun r => ((c, c) :: r.1, r.2)
    else none
  | c :: '-' :: d :: rest =>
    if d = ']' then some ([(c, c), ('-', '-')], rest)
    else if d = '\\' || d < c then none
    else (classRanges rest).map fun r => ((c, d) :: r.1, r.2)
  | c :: rest => (classRanges rest).map fun r => ((c, c) :: r.1, r.2)

/-- The atom at the start of a pattern text, and the text after it. -/
def parseAtom : List Char → Option (Atom × List Char)
  | [] => none
  | c :: rest =>
    if c = '.' then some (.any, rest)
    else if c = '\\' then
      match rest with
      | d :: rest' => (escapeAtom d).map (·, rest')
      | [] => none
    else if c = '[' then
      match rest with
      | ']' :: _ => none
      | '^' :: rest' => (classRanges rest').map fun r => (.cls true r.1, r.2)
      | _ => (classRanges rest).map fun r => (.cls false r.1, r.2)
    else if Lexer.regexSpecial c then none
    else some (.char c, rest)

/-- The quantifier a character stands for. -/
def quantOf (c : Char) : Option Quant :=
  if c = '*' then some .star else if c = '+' then some .plus else if c = '?' then some .opt else none

/-- The quantifier after an atom, and the text after it; lazy and bounded quantifiers are outside
the fragment. -/
def parseQuant : List Char → Option (Quant × List Char)
  | [] => some (.one, [])
  | c :: rest =>
    match quantOf c with
    | some q => if rest.head? = some '?' then none else some (q, rest)
    | none => if c = '\x7b' then none else some (.one, c :: rest)

/-- The pieces of a pattern text and whether it ends with `$`, reading at most `fuel` pieces. -/
def parsePieces : Nat → List Char → Option (List Piece × Bool)
  | 0, _ => none
  | fuel + 1, text =>
    if text = [] then some ([], false)
    else if text = ['$'] then some ([], true)
    else (parseAtom text).bind fun (a, rest) => (parseQuant rest).bind fun (q, rest') =>
      (parsePieces fuel rest').map fun r => (⟨a, q⟩ :: r.1, r.2)

/-- The pattern a text of the fragment stands for. Every piece reads a character, so as many
pieces as characters suffice. -/
def parse (text : List Char) : Option Regex :=
  match text with
  | '^' :: rest => (parsePieces (rest.length + 1) rest).map fun r => ⟨true, r.1, r.2⟩
  | _ => (parsePieces (text.length + 1) text).map fun r => ⟨false, r.1, r.2⟩

/-! ## The search at position 0 -/

/-- The most characters a piece can take at the start of `s`: the run its atom accepts, cut to the
quantifier's bound. -/
def Piece.maxCount (p : Piece) (s : List Char) : Nat :=
  match p.quant.hi with
  | some h => min (s.takeWhile p.atom.test).length h
  | none => (s.takeWhile p.atom.test).length

/-- The first answer among `f n`, `f (n - 1)`, …, `f lo`: a greedy quantifier tries its counts
from the most down. -/
def countDown (lo : Nat) (f : Nat → Option Nat) : Nat → Option Nat
  | 0 => if lo = 0 then f 0 else none
  | n + 1 =>
    if n + 1 < lo then none
    else match f (n + 1) with
      | some m => some m
      | none => countDown lo f n

/-- The length of the match of the pieces at the start of `s`, the first the backtracking search
finds; with `anchorEnd` the match must reach the end of `s`. -/
def matchPieces (anchorEnd : Bool) : List Piece → List Char → Option Nat
  | [], s => if anchorEnd && !s.isEmpty then none else some 0
  | p :: ps, s =>
    countDown p.quant.lo (fun j => (matchPieces anchorEnd ps (s.drop j)).map (j + ·)) (p.maxCount s)

/-- The length of the match `regex_search` reports at position 0 of `s`, if it reports one
there. -/
def matchAt (r : Regex) (s : List Char) : Option Nat := matchPieces r.anchorEnd r.pieces s

/-- The texts a sequence of pieces matches: each piece takes characters its atom accepts, as many
as its quantifier allows. -/
inductive Matches : List Piece → List Char → Prop
  | nil : Matches [] []
  | cons {p : Piece} {ps : List Piece} {t rest : List Char} :
      (∀ c ∈ t, p.atom.test c = true) → p.quant.Allows t.length → Matches ps rest →
        Matches (p :: ps) (t ++ rest)

/-! ## What the search finds -/

theorem countDown_eq_some {lo : Nat} {f : Nat → Option Nat} {m : Nat} :
    ∀ {n : Nat}, countDown lo f n = some m → ∃ j, lo ≤ j ∧ j ≤ n ∧ f j = some m
  | 0, h => by
    unfold countDown at h
    split at h
    · exact ⟨0, by omega, le_rfl, h⟩
    · cases h
  | n + 1, h => by
    unfold countDown at h
    split at h
    · cases h
    · split at h
      · cases h; exact ⟨n + 1, by omega, le_rfl, ‹_›⟩
      · obtain ⟨j, hlo, hle, hj⟩ := countDown_eq_some h
        exact ⟨j, hlo, by omega, hj⟩

theorem countDown_isSome {lo : Nat} {f : Nat → Option Nat} {j : Nat} (hlo : lo ≤ j)
    (hj : (f j).isSome) : ∀ {n : Nat}, j ≤ n → (countDown lo f n).isSome
  | 0, hn => by
    obtain rfl : j = 0 := by omega
    simpa [countDown, show lo = 0 by omega] using hj
  | n + 1, hn => by
    unfold countDown
    rw [if_neg (by omega)]
    split
    · rfl
    · rename_i hf
      rcases Nat.lt_or_ge j (n + 1) with hlt | hge
      · exact countDown_isSome hlo hj (by omega)
      · rw [show j = n + 1 by omega, hf] at hj
        cases hj

theorem maxCount_le (p : Piece) (s : List Char) : p.maxCount s ≤ (s.takeWhile p.atom.test).length := by
  unfold Piece.maxCount; split <;> omega

theorem quant_allows_of_le {p : Piece} {s : List Char} {j : Nat} (hlo : p.quant.lo ≤ j)
    (hj : j ≤ p.maxCount s) : p.quant.Allows j := by
  refine ⟨hlo, fun h hh => ?_⟩
  unfold Piece.maxCount at hj
  rw [hh] at hj
  exact le_trans hj (min_le_right _ _)

/-- The first `j` characters of a run the atom accepts are accepted. -/
theorem test_of_mem_take {p : Char → Bool} {s : List Char} {j : Nat}
    (hj : j ≤ (s.takeWhile p).length) : ∀ c ∈ s.take j, p c = true := by
  intro c hc
  have hpre : (s.takeWhile p).take j = s.take j := by
    rw [List.prefix_iff_eq_take.mp (List.takeWhile_prefix p), List.take_take, min_eq_left hj]
  rw [← hpre] at hc
  exact List.mem_takeWhile_imp (List.mem_of_mem_take hc)

/-- A prefix whose characters the atom accepts lies within the run it accepts. -/
theorem length_le_takeWhile {p : Char → Bool} : ∀ {t s : List Char}, t <+: s →
    (∀ c ∈ t, p c = true) → t.length ≤ (s.takeWhile p).length
  | [], _, _, _ => Nat.zero_le _
  | c :: t, s, ⟨u, hu⟩, ht => by
    subst hu
    have hc := ht c (List.mem_cons_self _ _)
    rw [List.cons_append, List.takeWhile_cons_of_pos hc, List.length_cons, List.length_cons]
    exact Nat.succ_le_succ (length_le_takeWhile ⟨u, rfl⟩ fun d hd => ht d (List.mem_cons_of_mem _ hd))

/-- Soundness of the search: its match is a prefix of the text that the pieces match, and with
`$` it is the whole text. -/
theorem matchPieces_sound {anchorEnd : Bool} : ∀ {ps : List Piece} {s : List Char} {n : Nat},
    matchPieces anchorEnd ps s = some n →
      n ≤ s.length ∧ Matches ps (s.take n) ∧ (anchorEnd = true → n = s.length)
  | [], s, n, h => by
    unfold matchPieces at h
    split at h
    · cases h
    · rename_i he
      cases h
      refine ⟨Nat.zero_le _, .nil, fun hae => ?_⟩
      cases s with
      | nil => rfl
      | cons => simp [hae] at he
  | p :: ps, s, n, h => by
    obtain ⟨j, hlo, hj, hf⟩ := countDown_eq_some h
    obtain ⟨m, hm, rfl⟩ := Option.map_eq_some'.mp hf
    obtain ⟨hle, hmatch, hend⟩ := matchPieces_sound hm
    have hjs : j ≤ s.length := le_trans hj (le_trans (maxCount_le p s) (List.takeWhile_prefix _).length_le)
    rw [List.length_drop] at hle hend
    refine ⟨by omega, ?_, fun hae => by have := hend hae; omega⟩
    rw [List.take_add]
    refine .cons (test_of_mem_take (le_trans hj (maxCount_le p s))) ?_ hmatch
    rw [List.length_take, min_eq_left hjs]
    exact quant_allows_of_le hlo hj

/-- Completeness of the search: when the pieces match a prefix of the text (the whole text with
`$`), the search reports a match. -/
theorem matchPieces_complete {anchorEnd : Bool} {ps : List Piece} {t : List Char} (h : Matches ps t) :
    ∀ {s : List Char}, t <+: s → (anchorEnd = true → t = s) → (matchPieces anchorEnd ps s).isSome := by
  induction h with
  | nil =>
    intro s _ hend
    unfold matchPieces
    cases anchorEnd
    · rfl
    · rw [← hend rfl]; rfl
  | @cons p ps t rest ht hq _ ih =>
    intro s hpre hend
    obtain ⟨u, rfl⟩ := hpre
    have hrun := length_le_takeWhile ⟨rest ++ u, (List.append_assoc _ _ _).symm⟩ ht
    refine countDown_isSome hq.1 ?_ ?_
    · rw [List.append_assoc, List.drop_left]
      simpa using ih ⟨u, rfl⟩ fun hae => by simpa using hend hae
    · unfold Piece.maxCount
      split
      · exact le_min hrun (hq.2 _ ‹_›)
      · exact hrun

/-- The search reports a match at position 0 exactly when the pieces match a prefix of the text
(the whole text with `$`). -/
theorem matchAt_isSome_iff (r : Regex) (s : List Char) :
    (r.matchAt s).isSome ↔ ∃ t, t <+: s ∧ Matches r.pieces t ∧ (r.anchorEnd = true → t = s) := by
  constructor
  · intro h
    obtain ⟨n, hn⟩ := Option.isSome_iff_exists.mp h
    obtain ⟨-, hm, hend⟩ := matchPieces_sound hn
    exact ⟨s.take n, List.take_prefix _ _, hm, fun hae => by rw [hend hae, List.take_length]⟩
  · rintro ⟨t, hpre, hm, hend⟩
    exact matchPieces_complete hm hpre hend

/-- The fewest characters the pieces match. -/
def minLength (ps : List Piece) : Nat := (ps.map (·.quant.lo)).sum

theorem minLength_le {ps : List Piece} {t : List Char} (h : Matches ps t) : minLength ps ≤ t.length := by
  induction h with
  | nil => exact le_rfl
  | cons _ hq _ ih =>
    simp only [minLength, List.map_cons, List.sum_cons, List.length_append] at ih ⊢
    exact Nat.add_le_add hq.1 ih

/-- Every character of a match is accepted by the atom of one of the pieces. -/
theorem Matches.test_of_mem {ps : List Piece} {t : List Char} (h : Matches ps t) :
    ∀ c ∈ t, ∃ p ∈ ps, p.atom.test c = true := by
  induction h with
  | nil => simp
  | @cons p _ _ _ ht _ _ ih =>
    intro c hc
    rcases List.mem_append.mp hc with hc | hc
    · exact ⟨p, List.mem_cons_self _ _, ht c hc⟩
    · obtain ⟨q, hq, hqc⟩ := ih c hc
      exact ⟨q, List.mem_cons_of_mem _ hq, hqc⟩

/-- A pattern whose pieces ask for at least one character never matches the empty string. -/
theorem matchAt_pos {r : Regex} (hmin : 0 < minLength r.pieces) {s : List Char} {n : Nat}
    (h : r.matchAt s = some n) : 0 < n := by
  obtain ⟨hle, hm, -⟩ := matchPieces_sound h
  have := minLength_le hm
  rw [List.length_take, min_eq_left hle] at this
  omega

/-! ## Which characters a pattern reads -/

/-- The atom accepts only characters of `bs`: it is a character of `bs`, or a bracket expression
of single characters of `bs`. -/
def Atom.within (bs : List Char) : Atom → Bool
  | .char c => c ∈ bs
  | .cls false ranges => ranges.all fun r => r.1 = r.2 && r.1 ∈ bs
  | _ => false

/-- The atom accepts no character of `bs`. -/
def Atom.avoids (bs : List Char) (a : Atom) : Bool := bs.all fun b => !a.test b

theorem Atom.mem_of_within {bs : List Char} {a : Atom} (h : a.within bs = true) {c : Char}
    (hc : a.test c = true) : c ∈ bs := by
  cases a with
  | char d =>
    simp only [within, decide_eq_true_eq] at h
    simp only [test, beq_iff_eq] at hc
    exact hc ▸ h
  | cls negated ranges =>
    cases negated with
    | true => cases h
    | false =>
      simp only [test, Bool.bne_false, List.any_eq_true, Bool.and_eq_true, decide_eq_true_eq] at hc
      obtain ⟨r, hr, hlo, hhi⟩ := hc
      have hr' := List.all_eq_true.mp h r hr
      simp only [Bool.and_eq_true, decide_eq_true_eq] at hr'
      obtain ⟨heq, hmem⟩ := hr'
      rwa [show c = r.1 from le_antisymm (heq ▸ hhi) hlo]
  | digit | space | word | any => cases h

theorem Atom.not_mem_of_avoids {bs : List Char} {a : Atom} (h : a.avoids bs = true) {c : Char}
    (hc : a.test c = true) : c ∉ bs := fun hm => by
  have := List.all_eq_true.mp h c hm
  rw [hc] at this
  cases this

/-- A rule's pattern reads only characters of `bs` when `skip`, and none of them otherwise. -/
def Fits (bs : List Char) (skip : Bool) (r : Regex) : Bool :=
  r.pieces.all fun p => if skip then p.atom.within bs else p.atom.avoids bs

/-- The characters of a match of a fitting pattern are in `bs` exactly when the rule is skipped. -/
theorem Fits.mem_iff {bs : List Char} {skip : Bool} {r : Regex} (h : Fits bs skip r = true)
    {s : List Char} {n : Nat} (hm : r.matchAt s = some n) : ∀ c ∈ s.take n, decide (c ∈ bs) = skip := by
  intro c hc
  obtain ⟨p, hp, hpc⟩ := (matchPieces_sound hm).2.1.test_of_mem c hc
  have hfit := List.all_eq_true.mp h p hp
  cases skip
  · simpa using p.atom.not_mem_of_avoids hfit hpc
  · simpa using p.atom.mem_of_within hfit hpc

/-! ## The regex constructor -/

/-- The `Pattern` `next_token` reads from a pattern of the fragment. -/
def toPattern (r : Regex) : Pattern := ⟨r.matchAt, fun _ _ h => (matchPieces_sound h).1⟩

/-- `std::regex(pattern)` on the fragment. The model gives no answer outside it, written as an
error. -/
def compile (pattern : String) : Except String Pattern :=
  match parse pattern.toList with
  | some r => .ok r.toPattern
  | none => .error "pattern outside the modelled fragment"

/-! ## `add_keyword` -/

/-- The piece of a literal character. -/
def literal (c : Char) : Piece := ⟨.char c, .one⟩

/-- The text `add_keyword` writes for a keyword, between `^` and `$`. -/
def escapeKeyword (keyword : List Char) : List Char :=
  keyword.flatMap fun c => if Lexer.regexSpecial c then ['\\', c] else [c]

theorem ne_of_regexSpecial {c x : Char} (hc : Lexer.regexSpecial c = false)
    (hx : Lexer.regexSpecial x = true) : c ≠ x := by
  rintro rfl; rw [hc] at hx; cases hx

theorem parseAtom_plain {c : Char} (hc : Lexer.regexSpecial c = false) (rest : List Char) :
    parseAtom (c :: rest) = some (.char c, rest) := by
  simp [parseAtom, ne_of_regexSpecial hc (x := '.') (by decide),
    ne_of_regexSpecial hc (x := '\\') (by decide), ne_of_regexSpecial hc (x := '[') (by decide), hc]

theorem parseAtom_escaped {c : Char} (hc : Lexer.regexSpecial c = true) (rest : List Char) :
    parseAtom ('\\' :: c :: rest) = some (.char c, rest) := by
  have hne : ∀ x, Lexer.regexSpecial x = false → c ≠ x := fun x hx h => ne_of_regexSpecial hx hc h.symm
  simp [parseAtom, escapeAtom, hne 'd' rfl, hne 's' rfl, hne 'w' rfl, hne 'n' rfl, hne 't' rfl,
    hne 'r' rfl, hc]

/-- What follows an escaped keyword: `$` for `add_keyword`, nothing for a literal rule of the
generated lexer. -/
def anchorText (anchorEnd : Bool) : List Char := if anchorEnd then ['$'] else []

/-- After an atom of an escaped keyword comes no quantifier. -/
theorem parseQuant_escapeKeyword (keyword : List Char) (e : Bool) :
    parseQuant (escapeKeyword keyword ++ anchorText e) = some (.one, escapeKeyword keyword ++ anchorText e) := by
  cases keyword with
  | nil => cases e <;> rfl
  | cons c cs =>
    by_cases hc : Lexer.regexSpecial c = true
    · simp [escapeKeyword, hc, parseQuant, quantOf]
    · have hc' : Lexer.regexSpecial c = false := by simpa using hc
      simp [escapeKeyword, hc, parseQuant, quantOf, ne_of_regexSpecial hc' (x := '*') (by decide),
        ne_of_regexSpecial hc' (x := '+') (by decide), ne_of_regexSpecial hc' (x := '?') (by decide),
        ne_of_regexSpecial hc' (x := '\x7b') (by decide)]

theorem parsePieces_succ {fuel : Nat} {text : List Char} (h : text ≠ []) (h' : text ≠ ['$']) :
    parsePieces (fuel + 1) text = (parseAtom text).bind fun (a, rest) =>
      (parseQuant rest).bind fun (q, rest') => (parsePieces fuel rest').map fun r => (⟨a, q⟩ :: r.1, r.2) := by
  rw [parsePieces, if_neg h, if_neg h']

theorem parsePieces_escapeKeyword (e : Bool) : ∀ (keyword : List Char) (fuel : Nat), keyword.length < fuel →
    parsePieces fuel (escapeKeyword keyword ++ anchorText e) = some (keyword.map literal, e)
  | [], fuel + 1, _ => by cases e <;> rfl
  | c :: cs, fuel + 1, hf => by
    have ih := parsePieces_escapeKeyword e cs fuel (by simp at hf; omega)
    have hq := parseQuant_escapeKeyword cs e
    by_cases hc : Lexer.regexSpecial c = true
    · simp only [escapeKeyword, List.flatMap_cons, if_pos hc] at ih hq ⊢
      rw [List.cons_append, List.cons_append, parsePieces_succ (by simp) (by simp)]
      simp [parseAtom_escaped hc, hq, ih, literal]
    · have hc' : Lexer.regexSpecial c = false := by simpa using hc
      simp only [escapeKeyword, List.flatMap_cons, if_neg hc] at ih hq ⊢
      rw [List.singleton_append, List.cons_append,
        parsePieces_succ (by simp) (by simp [ne_of_regexSpecial hc' (x := '$') (by decide)])]
      simp [parseAtom_plain hc', hq, ih, literal]

theorem length_le_escapeKeyword : ∀ keyword : List Char, keyword.length ≤ (escapeKeyword keyword).length
  | [] => le_rfl
  | c :: cs => by
    have ih := length_le_escapeKeyword cs
    have hc : 1 ≤ (if Lexer.regexSpecial c then ['\\', c] else [c]).length := by
      split <;> simp only [List.length_cons, List.length_singleton] <;> omega
    show cs.length + 1 ≤ ((if Lexer.regexSpecial c then ['\\', c] else [c]) ++ escapeKeyword cs).length
    rw [List.length_append]
    omega

/-- The pattern `add_keyword` writes reads as the keyword's characters between `^` and `$`. -/
theorem parse_keyword (keyword : List Char) :
    parse ('^' :: (escapeKeyword keyword ++ ['$'])) = some ⟨true, keyword.map literal, true⟩ := by
  have hlen := length_le_escapeKeyword keyword
  simp only [parse]
  rw [show escapeKeyword keyword ++ ['$'] = escapeKeyword keyword ++ anchorText true from rfl,
    parsePieces_escapeKeyword true keyword _ (by simp [anchorText]; omega)]
  rfl

/-- An escaped keyword without anchors reads as the keyword's characters: it does not start with
`^`, which is escaped. -/
theorem parse_escapeKeyword (keyword : List Char) :
    parse (escapeKeyword keyword) = some ⟨false, keyword.map literal, false⟩ := by
  have h := parsePieces_escapeKeyword false keyword ((escapeKeyword keyword).length + 1)
    (Nat.lt_succ_of_le (length_le_escapeKeyword keyword))
  rw [anchorText, if_neg Bool.false_ne_true, List.append_nil] at h
  cases keyword with
  | nil => rfl
  | cons c cs =>
    by_cases hc : Lexer.regexSpecial c = true
    · simp only [escapeKeyword, List.flatMap_cons, if_pos hc, List.cons_append] at h ⊢
      simpa [parse] using h
    · have hne : c ≠ '^' := ne_of_regexSpecial (by simpa using hc) (by decide)
      simp only [escapeKeyword, List.flatMap_cons, if_neg hc, List.singleton_append] at h ⊢
      simpa [parse, hne] using h

/-- The literal pieces of a keyword match where the text starts with the keyword, followed by a
match of the pieces after them. -/
theorem matchPieces_literal_append (e : Bool) (ps : List Piece) : ∀ (keyword s : List Char),
    matchPieces e (keyword.map literal ++ ps) s =
      if keyword <+: s then (matchPieces e ps (s.drop keyword.length)).map (keyword.length + ·) else none
  | [], s => by simp
  | c :: cs, [] => by simp [matchPieces, Piece.maxCount, literal, Quant.hi, Quant.lo, countDown]
  | c :: cs, d :: s => by
    have ih := matchPieces_literal_append e ps cs s
    by_cases hd : d = c
    · subst hd
      have hmax : (literal d).maxCount (d :: s) = 1 := by
        simp [Piece.maxCount, literal, Quant.hi, Atom.test]
      rw [List.map_cons, List.cons_append, matchPieces, hmax]
      by_cases hp : cs <+: s
      · simp only [countDown, literal, Quant.lo, lt_irrefl, if_false, List.drop_succ_cons, List.drop_zero,
          ih, hp, List.cons_prefix_cons, List.length_cons, true_and, if_true]
        cases matchPieces e ps (s.drop cs.length) <;> simp [Nat.add_assoc, Nat.add_comm]
      · simp [countDown, literal, Quant.lo, ih, hp]
    · simp [matchPieces, Piece.maxCount, literal, Quant.hi, Quant.lo, Atom.test, hd, Ne.symm hd, countDown]

/-- The literal pieces of a keyword, anchored at the end, match a text only when it is the
keyword. -/
theorem matchPieces_literal (keyword s : List Char) :
    matchPieces true (keyword.map literal) s = if s = keyword then some keyword.length else none := by
  have h := matchPieces_literal_append true [] keyword s
  rw [List.append_nil] at h
  rw [h]
  by_cases hp : keyword <+: s
  · obtain ⟨t, rfl⟩ := hp
    cases t <;> simp [matchPieces]
  · rw [if_neg hp, if_neg (fun h : s = keyword => hp (h ▸ List.prefix_refl s))]

end Regex

namespace Lexer

/-- `add_keyword` with the regex constructor of the fragment adds a rule, not skipped, whose regex
matches the remaining input only when that is the keyword itself: `^` and `$` anchor the pattern
at both ends of the text `regex_search` runs on, the rest of the input. So in any input a keyword
followed by more text never matches its rule. -/
theorem addKeyword_matches_only_rest (l : Lexer) (keyword : String) (type : TokenType) :
    ∃ P : Pattern, (l.addKeyword Regex.compile keyword type).rules = l.rules ++ [⟨type, P, false⟩] ∧
      ∀ s, P.matchAt s = if s = keyword.toList then some keyword.length else none := by
  have hparse := Regex.parse_keyword keyword.toList
  refine ⟨(⟨true, keyword.toList.map Regex.literal, true⟩ : Regex).toPattern, ?_, fun s => ?_⟩
  · simp only [addKeyword, addRule, Regex.compile]
    rw [show ("^" ++ String.mk (keyword.toList.flatMap fun c => if regexSpecial c then ['\\', c] else [c]) ++
        "$").toList = '^' :: (Regex.escapeKeyword keyword.toList ++ ['$']) from rfl, hparse]
  · exact Regex.matchPieces_literal keyword.toList s

end Lexer

end Lalr1
