import Mathlib.Data.List.Basic

/-!
# Splitting ANTLR rule bodies into alternatives

`G4Parser::split_alternatives` (`g4_parser.cpp`) cuts the body of a parser rule at each `|` that
is at bracket depth 0. Its loop counts every `(`, `[`, `{` and `)`, `]`, `}` and reads no quoted
literal, and it pushes the last piece only when it is not empty. `expand_ebnf` normalises an
alternative and splits it once more if it holds a `|`.

What the loop computes, said without its accumulators (`topLevelPieces`): the body is cut at
each `|` before which it holds as many opening as closing brackets, each piece is normalised,
and an empty last piece is dropped (`splitAlternatives_eq_topLevelPieces`). The step lemma says
that `paren_count` is the bracket depth of the text read (`splitStep_depth`), and the run lemma
carries it over the loop (`foldl_splitStep`).

Beside the code stands the reading of a rule body that ANTLR asks for (`alternativesSpec`):
`|` and brackets inside a quoted literal `'…'` are text, and every piece counts, the empty last
one included. With quotes, or with an empty last alternative, the two differ
(`split_alternatives_breaks_quotes_and_epsilon`).
-/

namespace Lalr1

namespace G4Parser

/-! ## The code -/

/-- The characters of the class `\s` of `std::regex` (and of `std::isspace`) in the C locale. -/
def isSpace (c : Char) : Bool :=
  c = ' ' || c = '\t' || c = '\n' || c = '\x0B' || c = '\x0C' || c = '\r'

/-- The characters of `\w` in the C locale: letters, digits and `_`. -/
def isWordChar (c : Char) : Bool := c.isAlphanum || c = '_'

/-- The characters `.` does not match in an ECMAScript `std::regex`: the line terminators. -/
def isLineTerminator (c : Char) : Bool := c = '\n' || c = '\r'

/-- `std::regex_replace(text, \s+, " ")`, reading left to right; the flag says whether the last
character read was white space. -/
def normalizeWhitespace.go : Bool → List Char → List Char
  | _, [] => []
  | inRun, c :: cs =>
    if isSpace c then (if inRun then go true cs else ' ' :: go true cs) else c :: go false cs

/-- `G4Parser::normalize_whitespace`: every maximal run of white space becomes one blank. -/
def normalizeWhitespace (text : List Char) : List Char := normalizeWhitespace.go false text

/-- The opening brackets `split_alternatives` counts. -/
def isOpen (c : Char) : Bool := c = '(' || c = '[' || c = '\x7b'

/-- The closing brackets `split_alternatives` counts. -/
def isClose (c : Char) : Bool := c = ')' || c = ']' || c = '\x7d'

/-- The variables of the loop of `split_alternatives`. `paren_count` is an `int`; it would need
`2^31` brackets to overflow. -/
structure SplitState where
  alternatives : List (List Char)
  currentAlt : List Char
  parenCount : Int
  deriving DecidableEq, Repr

/-- One character of the loop of `split_alternatives`. -/
def splitStep (st : SplitState) (c : Char) : SplitState :=
  if isOpen c then { st with parenCount := st.parenCount + 1, currentAlt := st.currentAlt ++ [c] }
  else if isClose c then
    { st with parenCount := st.parenCount - 1, currentAlt := st.currentAlt ++ [c] }
  else if c = '|' ∧ st.parenCount = 0 then
    { st with alternatives := st.alternatives ++ [normalizeWhitespace st.currentAlt], currentAlt := [] }
  else { st with currentAlt := st.currentAlt ++ [c] }

/-- `G4Parser::split_alternatives`. -/
def splitAlternatives (alternativesText : List Char) : List (List Char) :=
  let st := alternativesText.foldl splitStep ⟨[], [], 0⟩
  if st.currentAlt.isEmpty then st.alternatives
  else st.alternatives ++ [normalizeWhitespace st.currentAlt]

/-- `G4Parser::expand_ebnf`: the normalised alternative, split again if it holds a `|`. The rule
name is not read. -/
def expandEbnf (alternative : List Char) : List (List Char) :=
  let cleaned := normalizeWhitespace alternative
  if '|' ∈ cleaned then (splitAlternatives cleaned).map normalizeWhitespace else [cleaned]

/-! ## The alternatives of a rule body -/

/-- The variables of a reading of a rule body that knows quoted literals: inside `'…'` no
character is a bracket or a split point. A quote opens or closes a literal; escapes inside
literals are not read. -/
structure AltState where
  pieces : List (List Char)
  current : List Char
  depth : Int
  quoted : Bool
  deriving DecidableEq, Repr

/-- One character of the quote-aware reading. -/
def altStep (st : AltState) (c : Char) : AltState :=
  if c = '\'' then { st with current := st.current ++ [c], quoted := !st.quoted }
  else if st.quoted then { st with current := st.current ++ [c] }
  else if isOpen c then { st with depth := st.depth + 1, current := st.current ++ [c] }
  else if isClose c then { st with depth := st.depth - 1, current := st.current ++ [c] }
  else if c = '|' ∧ st.depth = 0 then
    { st with pieces := st.pieces ++ [normalizeWhitespace st.current], current := [] }
  else { st with current := st.current ++ [c] }

/-- The alternatives of a rule body: the normalised texts between consecutive `|` outside quoted
literals at bracket depth 0, where the depth counts the brackets outside quoted literals; one more
piece than split points, empty ones included. -/
def alternativesSpec (text : List Char) : List (List Char) :=
  let st := text.foldl altStep ⟨[], [], 0, false⟩
  st.pieces ++ [normalizeWhitespace st.current]

/-! ## What the code computes -/

/-- The bracket depth at the end of a text: its opening brackets minus its closing ones. -/
def bracketDepth (s : List Char) : Int := (s.countP isOpen : Int) - (s.countP isClose : Int)

/-- The pieces of a rule body between the `|` before which the body holds as many opening as
closing brackets: each character is paired with the text before it, and the body is cut at the
`|` whose text before has depth 0. Quotes are not read. -/
def topLevelPieces (text : List Char) : List (List Char) :=
  ((text.inits.zip text).splitOnP fun pc => pc.2 == '|' && bracketDepth pc.1 == 0).map
    (·.map Prod.snd)

/-- Normalising keeps a text empty or not empty. -/
theorem normalizeWhitespace_eq_nil_iff : ∀ s : List Char, normalizeWhitespace s = [] ↔ s = []
  | [] => Iff.rfl
  | c :: cs => by unfold normalizeWhitespace normalizeWhitespace.go; split <;> simp

/-- A list without an empty last element. -/
def dropLastEmpty (l : List (List Char)) : List (List Char) :=
  if l.getLast? = some [] then l.dropLast else l

/-- The pieces of the rest `cs` of a body whose first part `a` is read: the cut test sees the
whole text before each character. -/
def piecesAfter (a cs : List Char) : List (List Char) :=
  (((cs.inits.map (a ++ ·)).zip cs).splitOnP fun pc => pc.2 == '|' && bracketDepth pc.1 == 0).map
    (·.map Prod.snd)

theorem isClose_eq_false_of_isOpen {c : Char} (h : isOpen c = true) : isClose c = false := by
  simp only [isOpen, isClose, Bool.or_eq_true, decide_eq_true_eq] at h ⊢
  rcases h with (rfl | rfl) | rfl <;> decide

theorem bracketDepth_append_singleton (a : List Char) (c : Char) :
    bracketDepth (a ++ [c]) =
      bracketDepth a + (if isOpen c then 1 else if isClose c then -1 else 0) := by
  by_cases ho : isOpen c
  · simp [bracketDepth, List.countP_append, ho, isClose_eq_false_of_isOpen ho]
    omega
  by_cases hc : isClose c
  · simp [bracketDepth, List.countP_append, ho, hc]
    omega
  · simp [bracketDepth, List.countP_append, ho, hc]

/-- Step lemma: with `paren_count` the depth of the text read, one step of the loop keeps it so,
and splits exactly at a `|` read at depth 0. -/
theorem splitStep_depth (alts : List (List Char)) (cur a : List Char) (c : Char) :
    splitStep ⟨alts, cur, bracketDepth a⟩ c =
      if c = '|' ∧ bracketDepth a = 0 then
        ⟨alts ++ [normalizeWhitespace cur], [], bracketDepth (a ++ [c])⟩
      else ⟨alts, cur ++ [c], bracketDepth (a ++ [c])⟩ := by
  rw [bracketDepth_append_singleton]
  by_cases ho : isOpen c
  · have hb : c ≠ '|' := by rintro rfl; cases ho
    simp [splitStep, ho, hb]
  by_cases hc : isClose c
  · have hb : c ≠ '|' := by rintro rfl; cases hc
    simp [splitStep, ho, hc, hb, Int.sub_eq_add_neg]
  by_cases hb : c = '|' ∧ bracketDepth a = 0
  · obtain ⟨rfl, h0⟩ := hb
    simp [splitStep, ho, hc, h0]
  · simp [splitStep, ho, hc, hb]

theorem piecesAfter_nil (a : List Char) : piecesAfter a [] = [[]] := rfl

theorem piecesAfter_cons (a cs : List Char) (c : Char) :
    piecesAfter a (c :: cs) = if c = '|' ∧ bracketDepth a = 0 then [] :: piecesAfter (a ++ [c]) cs
      else (piecesAfter (a ++ [c]) cs).modifyHead (c :: ·) := by
  have hinits : (c :: cs).inits.map (a ++ ·) = a :: cs.inits.map ((a ++ [c]) ++ ·) := by
    simp [List.inits, Function.comp_def]
  rw [piecesAfter, hinits, List.zip_cons_cons, List.splitOnP_cons]
  by_cases h : c = '|' ∧ bracketDepth a = 0
  · simp [h, piecesAfter]
  · rw [if_neg (by simpa using h), if_neg h, piecesAfter]
    cases (((cs.inits.map ((a ++ [c]) ++ ·)).zip cs).splitOnP _) <;> rfl

theorem piecesAfter_ne_nil (a cs : List Char) : piecesAfter a cs ≠ [] := by
  simp [piecesAfter, List.splitOnP_ne_nil]

/-- Run lemma: from a state whose `paren_count` is the depth of the text `a` read, the loop over
the rest `cs` pushes the normalised pieces of `cs` but the last, the first continuing the current
alternative, and leaves the last piece as the current alternative. -/
theorem foldl_splitStep : ∀ (cs a cur : List Char) (alts : List (List Char)),
    cs.foldl splitStep ⟨alts, cur, bracketDepth a⟩ =
      ⟨alts ++ ((piecesAfter a cs).modifyHead (cur ++ ·)).dropLast.map normalizeWhitespace,
        ((piecesAfter a cs).modifyHead (cur ++ ·)).getLast?.getD [], bracketDepth (a ++ cs)⟩
  | [], a, cur, alts => by simp [piecesAfter_nil]
  | c :: cs, a, cur, alts => by
    have hne := piecesAfter_ne_nil (a ++ [c]) cs
    rw [List.foldl_cons, splitStep_depth, piecesAfter_cons]
    by_cases h : c = '|' ∧ bracketDepth a = 0
    · rw [if_pos h, if_pos h, foldl_splitStep]
      obtain ⟨p, ps, hps⟩ := List.exists_cons_of_ne_nil hne
      simp [hps, List.dropLast_cons_of_ne_nil, List.getLast?_cons]
    · rw [if_neg h, if_neg h, foldl_splitStep, List.modifyHead_modifyHead]
      simp [Function.comp_def]

/-- `split_alternatives` cuts a rule body at exactly the `|` before which the body holds as many
opening as closing brackets, normalises each piece, and drops the last piece when it is empty. -/
theorem splitAlternatives_eq_topLevelPieces (text : List Char) :
    splitAlternatives text = dropLastEmpty ((topLevelPieces text).map normalizeWhitespace) := by
  have hrun := foldl_splitStep text [] [] []
  have htop : topLevelPieces text = piecesAfter [] text := by simp [topLevelPieces, piecesAfter]
  have hid : (piecesAfter [] text).modifyHead ([] ++ ·) = piecesAfter [] text := by
    cases piecesAfter [] text <;> rfl
  obtain ⟨init, last, hP⟩ : ∃ init last, piecesAfter [] text = init ++ [last] :=
    ⟨_, _, (List.dropLast_append_getLast (piecesAfter_ne_nil [] text)).symm⟩
  unfold splitAlternatives
  rw [show (⟨[], [], 0⟩ : SplitState) = ⟨[], [], bracketDepth []⟩ from rfl, hrun, hid, htop, hP]
  simp only [List.dropLast_concat, List.getLast?_concat, Option.getD_some, List.map_append,
    List.map_cons, List.map_nil, List.nil_append, dropLastEmpty]
  cases last with
  | nil => simp [normalizeWhitespace, normalizeWhitespace.go]
  | cons c cs => simp [normalizeWhitespace_eq_nil_iff]

example : topLevelPieces "(a|b)|c".toList = ["(a|b)".toList, "c".toList] := by decide

/-- `split_alternatives` splits a quoted `|` and merges the alternatives around a `|` after a
quoted `(`, where the quote-aware reading gives one and two alternatives; and it drops the empty
last alternative of `a |`. -/
theorem split_alternatives_breaks_quotes_and_epsilon :
    (splitAlternatives "'|'".toList = ["'".toList, "'".toList] ∧
      alternativesSpec "'|'".toList = ["'|'".toList]) ∧
    (splitAlternatives "'(' | b".toList = ["'(' | b".toList] ∧
      alternativesSpec "'(' | b".toList = ["'(' ".toList, " b".toList]) ∧
    (splitAlternatives "a |".toList = ["a ".toList] ∧
      alternativesSpec "a |".toList = ["a ".toList, []]) := by
  decide

end G4Parser

end Lalr1
