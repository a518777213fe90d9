import Lalr1.Driver
import Lalr1.EpsilonRhs

/-!
# Soundness of `parse_internal`

A tree that `LALR1Parser::parse_internal` returns is a parse tree of the grammar for its start
symbol, and its terminal nodes, left to right, are the tokens read, up to end of input: whatever
conflicts `generate_table` resolved by overwriting cells.

The proof keeps two invariants along a run. The stack is a path of the LR(0) automaton whose
frames hold trees (`Lalr1.Driver`); and the leaves of those trees, bottom frame first, stand for
the tokens read so far (`WordInv`). `Accept` is only written for the item `(0, 1)`, so the loop
accepts with the frame of a tree for `S` right over the bottom frame, on the EOF token.

A childless node need not be a terminal: a production `A → []` gives a node `A` without children
(`parse_tree_has_nonterminal_leaf`).
-/

namespace Lalr1

@[simp] theorem TokenStream.next_snd_eof (L : TokenStream) : L.next.2.eof = L.eof := by
  obtain ⟨_ | _, _⟩ := L <;> rfl

@[simp] theorem TokenStream.next_snd_pending (L : TokenStream) : L.next.2.pending = L.pending.tail := by
  obtain ⟨_ | _, _⟩ := L <;> rfl

/-- The left-hand side of production 0 of an augmented grammar occurs in no right-hand side. -/
theorem Grammar.AugmentedShape.zero_fresh {g : Grammar} {S : Symbol} (h : g.AugmentedShape S) :
    ∀ q, g.productions[0]? = some q → ∀ p ∈ g.productions, q.lhs ∉ p.rhs := fun q hq p hp => by
  rw [h.zero, Option.some.injEq] at hq
  subst hq
  exact h.start_fresh p hp

namespace LALR1Parser

/-! ## The word of a configuration -/

/-- The leaves of the stack's nodes, bottom frame first. -/
def stackYield (stk : List StackElement) : List (Symbol × String) :=
  (stk.reverse.filterMap (·.node)).flatMap ParseNode.yield

@[simp] theorem stackYield_nil : stackYield [] = [] := rfl

@[simp] theorem stackYield_cons (f : StackElement) (stk : List StackElement) :
    stackYield (f :: stk) = stackYield stk ++ f.node.toList.flatMap ParseNode.yield := by
  cases h : f.node <;> simp [stackYield, List.filterMap_append, h]

theorem stackYield_append (l l' : List StackElement) :
    stackYield (l ++ l') = stackYield l' ++ stackYield l := by
  simp [stackYield, List.filterMap_append]

/-- A reduction replaces the popped frames by one frame whose node has their nodes as children,
which keeps the leaves. -/
theorem stackYield_reduce {X : Symbol} (hX : X.isNonterminal = true) (s k : Nat)
    (stk : List StackElement) :
    stackYield (⟨s, some X, some (.mk X "" ((stk.take k).reverse.filterMap (·.node)))⟩ ::
      stk.drop k) = stackYield stk := by
  conv_rhs => rw [← List.take_append_drop k stk, stackYield_append]
  simp [ParseNode.yield_mk_of_isNonterminal hX, stackYield]

/-- The tokens still to be shifted: the current token and the lexer's, up to end of input. -/
def unread (c : Config) : List Token := if c.token.isEof then [] else c.token :: c.lexer.pending

theorem unread_of_next (L : TokenStream) (hp : ∀ tok ∈ L.pending, tok.isEof = false)
    (he : L.eof.isEof = true) (stk : List StackElement) :
    unread ⟨stk, L.next.1, L.next.2⟩ = L.pending := by
  obtain ⟨_ | ⟨tok, rest⟩, eof⟩ := L
  · simp [unread, TokenStream.next, he]
  · simp [unread, TokenStream.next, hp tok (List.mem_cons_self _ _)]

/-- A leaf stands for a token: its symbol is a terminal of the token's kind, and it carries the
token's lexeme. -/
def LeafOf (l : Symbol × String) (tok : Token) : Prop :=
  l.1.isTerminal = true ∧ l.1.tokenType = tok.type ∧ l.2 = tok.value

variable {g : Grammar} {t : ParseTable}

/-- A token for which `find_terminal_for_token` finds a terminal is not EOF, and the shifted leaf
stands for it. -/
theorem leafOf_of_terminalFor {tok : Token} {a : Symbol} (h : terminalFor g tok = some a)
    (ha : a.isTerminal = true) : LeafOf (a, tok.value) tok ∧ tok.isEof = false := by
  unfold terminalFor at h
  split at h
  · cases h
    simp [endOfInputSymbol, Symbol.isTerminal] at ha
  · rename_i hne
    have hfind := List.find?_some h
    simp only [Bool.and_eq_true, beq_iff_eq] at hfind
    exact ⟨⟨ha, hfind.2, rfl⟩, Bool.eq_false_iff.mpr hne⟩

theorem isEof_of_terminalFor {tok : Token} (h : terminalFor g tok = some endOfInputSymbol) :
    tok.isEof = true := by
  unfold terminalFor at h
  split at h
  · assumption
  · have hfind := List.find?_some h
    simp [endOfInputSymbol, Symbol.isTerminal] at hfind

/-- What a reduction that continues pushes: the node built from the popped frames, on the state of
a goto entry. -/
theorem reduce_eq_next_iff {c c' : Config} {p : Production} (h : reduce t c p = .next c') :
    ∃ s, c' = ⟨⟨s, some p.lhs,
      some (.mk p.lhs "" ((c.stack.take p.rhs.length).reverse.filterMap (·.node)))⟩ ::
        c.stack.drop p.rhs.length, c.token, c.lexer⟩ := by
  unfold reduce at h
  split at h
  · cases h
  · dsimp only at h
    split at h
    · cases h
    · cases h
      exact ⟨_, rfl⟩

theorem reduce_ne_success {c : Config} {p : Production} {tr : Option ParseNode} :
    reduce t c p ≠ .done (.success tr) := by
  unfold reduce
  split
  · simp
  · dsimp only
    split <;> simp

/-- The word invariant of a run on the tokens `w`: the lexer ends in EOF tokens, and the leaves of
the stack stand for the tokens read so far, which with the unread ones make up `w`. -/
structure WordInv (w : List Token) (c : Config) : Prop where
  eof : c.lexer.eof.isEof = true
  pending : ∀ tok ∈ c.lexer.pending, tok.isEof = false
  leaves : ∃ read, w = read ++ unread c ∧ List.Forall₂ LeafOf (stackYield c.stack) read

theorem wordInv_init {w : List Token} (hw : ∀ tok ∈ w, tok.isEof = false) {eof : Token}
    (heof : eof.isEof = true) : WordInv w (initConfig ⟨w, eof⟩) :=
  ⟨by simpa [initConfig] using heof,
    fun tok h => hw tok (List.mem_of_mem_tail (by simpa [initConfig] using h)),
    [], by rw [initConfig, unread_of_next _ hw heof]; rfl, by simp [initConfig]⟩

open LALR1Generator

section

variable {gen : LALR1Generator} {addr : Nat → Nat} {T : ParseTable}
  (hT : gen.generateTable addr = .ok T)
  (hA : gen.lr0Automaton.Spec gen.grammar.symbolTable gen.grammar.productions)
  (h0 : ∀ q, gen.grammar.productions[0]? = some q → q.looksAugmented = true)
include hT hA h0

/-- Step lemma: a shift moves the current token from the unread ones to a new leaf on top; a
reduction keeps the leaves and the unread tokens. -/
theorem Step.wordInv {w : List Token} {c c' : Config} (hs : Step gen.grammar T c c')
    (hc : WordInv w c) : WordInv w c' := by
  obtain ⟨heof, hpend, read, hw, hread⟩ := hc
  have hcase := parseStep_cases hs
  generalize hr : StepResult.next c' = r at hcase
  cases hcase with
  | unknown => cases hr
  | shift _ hterm hact =>
    cases hr
    have ha := (shift_cell hT hact).2
    obtain ⟨hleaf, htok⟩ := leafOf_of_terminalFor hterm ha
    refine ⟨by simpa using heof, fun tok h => hpend tok (List.mem_of_mem_tail (by simpa using h)),
      read ++ [c.token], ?_, ?_⟩
    · rw [unread_of_next _ hpend heof, hw, unread, if_neg (by simp [htok])]
      simp
    · simpa [ParseNode.yield_mk_of_isTerminal ha] using List.rel_append hread (.cons hleaf .nil)
  | reduce _ hterm hact hp =>
    obtain ⟨-, p', -, -, hp', -, hnt⟩ := reduce_cell hT hA h0 hact
    obtain rfl := Option.some.inj (hp'.symm.trans hp)
    obtain ⟨s, rfl⟩ := reduce_eq_next_iff hr.symm
    exact ⟨heof, hpend, read, hw, by rwa [stackYield_reduce hnt]⟩
  | accept => split at hr <;> cases hr
  | error => cases hr

/-- Run lemma: every configuration reached from the first one keeps the word invariant. -/
theorem wordInv_of_reach {w : List Token} (hw : ∀ tok ∈ w, tok.isEof = false) {eof : Token}
    (heof : eof.isEof = true) {c : Config}
    (h : Relation.ReflTransGen (Step gen.grammar T) (initConfig ⟨w, eof⟩) c) : WordInv w c := by
  induction h with
  | refl => exact wordInv_init hw heof
  | tail _ hs ih => exact hs.wordInv hT hA h0 ih

/-- The tokens read from `ts` so far: after `n` of them the current token and the lexer are what
`ts` returns next, and the leaves of the stack, bottom frame first, stand for those `n` tokens. -/
def ReadFrom (ts : TokenStream) (c : Config) : Prop :=
  ∃ n, (c.token, c.lexer) = (ts.drop n).next ∧ List.Forall₂ LeafOf (stackYield c.stack) (ts.take n)

/-- Step lemma: a shift reads one more token and pushes the leaf that stands for it; a reduction
keeps the leaves. No assumption on the tokens: an EOF token among them is never shifted. -/
theorem Step.readFrom {ts : TokenStream} {c c' : Config} (hs : Step gen.grammar T c c')
    (hc : ReadFrom ts c) : ReadFrom ts c' := by
  obtain ⟨n, hn, hread⟩ := hc
  have hcase := parseStep_cases hs
  generalize hr : StepResult.next c' = r at hcase
  cases hcase with
  | unknown => cases hr
  | shift _ hterm hact =>
    cases hr
    obtain ⟨htok, hlex⟩ := Prod.ext_iff.mp hn
    refine ⟨n + 1, by rw [TokenStream.drop_succ, ← hlex], ?_⟩
    have hleaf := (leafOf_of_terminalFor hterm (shift_cell hT hact).2).1
    rw [TokenStream.take_succ, ← htok]
    simpa [ParseNode.yield_mk_of_isTerminal (shift_cell hT hact).2] using
      List.rel_append hread (.cons hleaf .nil)
  | reduce _ hterm hact hp =>
    obtain ⟨-, p', -, -, hp', -, hnt⟩ := reduce_cell hT hA h0 hact
    obtain rfl := Option.some.inj (hp'.symm.trans hp)
    obtain ⟨s, rfl⟩ := reduce_eq_next_iff hr.symm
    exact ⟨n, hn, by rwa [stackYield_reduce hnt]⟩
  | accept => split at hr <;> cases hr
  | error => cases hr

/-- Run lemma: every configuration reached from the first one has read a prefix of the tokens,
whose leaves the stack holds. -/
theorem readFrom_of_reach {ts : TokenStream} {c : Config}
    (h : Relation.ReflTransGen (Step gen.grammar T) (initConfig ts) c) : ReadFrom ts c := by
  induction h with
  | refl => exact ⟨0, rfl, by simp [initConfig, TokenStream.take]⟩
  | tail _ hs ih => exact hs.readFrom hT hA h0 ih

end

/-- The bottom frame is the only frame of a path in state 0: no transition leads back to it. -/
theorem stackPath_eq_bottom {t : SymbolTable} {prods : List Production} {A : LR0Automaton}
    (hA : A.Spec t prods) (hfresh : ∀ q, prods[0]? = some q → ∀ p ∈ prods, q.lhs ∉ p.rhs)
    {P : Symbol → Option ParseNode → Prop} {f : StackElement} {rest : List StackElement}
    (h : StackPath A P (f :: rest)) (hf : f.state = 0) : f = ⟨0, none, none⟩ ∧ rest = [] := by
  cases h with
  | bottom => exact ⟨rfl, rfl⟩
  | push _ htr _ => exact absurd hf (hA.transitions_ne_zero hfresh htr)

/-! ## The accepting configuration -/

section

variable {gen : LALR1Generator} {addr : Nat → Nat} {T : ParseTable} {S : Symbol}
  (hT : gen.generateTable addr = .ok T)
  (hA : gen.lr0Automaton.Spec gen.grammar.symbolTable gen.grammar.productions)
  (hshape : gen.grammar.AugmentedShape S)
include hT hA hshape

/-- An `Accept` cell is a cell of `$` in a state holding `(0, 1)`. -/
theorem accept_cell_zero_one {s : Nat} {a : Symbol} (h : T.getAction s a = .accept) :
    ∃ items, gen.lr0Automaton.states[s]? = some items ∧ (⟨0, 1⟩ : LR0Item) ∈ items ∧
      a = endOfInputSymbol := by
  cases cellAction_of_getAction hT h (by simp) with
  | accept hcore hit hp hcomp hacc ha =>
    exact ⟨_, hcore, eq_zero_one hA hshape hcore hit hp hcomp hacc ▸ hit, ha⟩

/-- On a path, the loop accepts only on the EOF token, with the frame of a tree for `S` right over
the bottom frame: the tree's leaves are all the leaves of the stack. -/
theorem accept_config {c : Config} (hc : StackPath gen.lr0Automaton (FrameTree gen.grammar) c.stack)
    {tr : ParseNode} (h : parseStep gen.grammar T c = some (.done (.success (some tr)))) :
    c.token.isEof = true ∧ stackYield c.stack = tr.yield ∧ FrameTree gen.grammar S (some tr) := by
  have hcase := parseStep_cases h
  generalize hr : StepResult.done (.success (some tr)) = r at hcase
  cases hcase with
  | unknown => cases hr
  | shift => cases hr
  | reduce _ _ _ _ => exact absurd hr.symm reduce_ne_success
  | error => cases hr
  | @accept top rest a hstk hterm hact =>
    have hnode : top.node = some tr := by
      split at hr
      · simp only [StepResult.done.injEq, ParseResult.success.injEq] at hr
        exact hr.symm
      · cases hr
    obtain ⟨items, hs, h01, rfl⟩ := accept_cell_zero_one hT hA hshape hact
    rw [hstk] at hc
    obtain ⟨below, hdrop, ⟨itemsB, hB, hitB⟩, hsyms, hframes⟩ := hc.pop hA 1 rfl hs h01
    obtain ⟨X, hX, hframe⟩ := hframes top (by simp)
    have hXS : X = S := by
      simpa [rhsOf, hshape.zero, hX] using hsyms
    have hbelow : below.state = 0 := hA.eq_zero_of_mem hB hshape.zero_fresh hitB
    obtain ⟨rest', rfl⟩ := List.head?_eq_some_iff.mp hdrop
    obtain ⟨rfl, rfl⟩ := stackPath_eq_bottom hA hshape.zero_fresh (hc.drop 1 (by simp)) hbelow
    refine ⟨isEof_of_terminalFor hterm, by simp [hstk, hnode], ?_⟩
    rwa [← hXS, ← hnode]

end

end LALR1Parser

/-! ## The stack at the head of the loop -/

open LALR1Parser in
/-- For a built grammar on which `generate_table` returns a table, any token stream, and any
configuration at the head of `parse_internal`'s loop: the bottom frame is `(0, null, null)`; each
frame above it holds the automaton's transition, on the frame's symbol, from the state below, and
a tree for that symbol whose nodes follow the grammar's productions; the leaves of these trees,
bottom frame first, stand for the tokens read so far; and for an item `(p, d)` of the top state
the `d` top frames carry the first `d` symbols of `p`. -/
theorem driver_stack_invariant {g : Grammar} (hb : g.Built) {gen : LALR1Generator}
    (hgen : LALR1Generator.create g = some gen) {addr : Nat → Nat} {T : ParseTable}
    (hT : gen.generateTable addr = .ok T) (ts : TokenStream) {c : Config}
    (hc : Relation.ReflTransGen (Step g T) (initConfig ts) c) :
    c.stack.getLast? = some ⟨0, none, none⟩ ∧ StackPath gen.lr0Automaton (FrameTree g) c.stack ∧
    (∃ n, (c.token, c.lexer) = (ts.drop n).next ∧
      List.Forall₂ LeafOf (stackYield c.stack) (ts.take n)) ∧
    ∀ top items, c.stack.head? = some top → gen.lr0Automaton.states[top.state]? = some items →
      ∀ p d, (⟨p, d⟩ : LR0Item) ∈ items →
        (c.stack.take d).reverse.map (·.symbol) = ((rhsOf g.productions p).take d).map some := by
  obtain rfl := LALR1Generator.grammar_of_create hgen
  have hA := LALR1Generator.spec_of_create hgen
  have h0 := hb.wf.looksAugmented_zero (LALR1Generator.isAugmented_of_generateTable hT)
  have hpath := stackPath_of_reach hT hA h0 hc
  refine ⟨hpath.getLast?, hpath, readFrom_of_reach hT hA h0 hc, fun top items htop hs p d hit => ?_⟩
  obtain ⟨-, -, -, hsyms, -⟩ := hpath.pop hA d htop hs hit
  exact hsyms

open LALR1Parser in
theorem driver_stack_invariant_expr :
    ∃ gen T, LALR1Generator.create exprGrammar.augment = some gen ∧ gen.generateTable id = .ok T ∧
      ∀ ts : TokenStream, (initConfig ts).stack.getLast? = some ⟨0, none, none⟩ ∧
        StackPath gen.lr0Automaton (FrameTree exprGrammar.augment) (initConfig ts).stack ∧
        (∃ n, ((initConfig ts).token, (initConfig ts).lexer) = (ts.drop n).next ∧
          List.Forall₂ LeafOf (stackYield (initConfig ts).stack) (ts.take n)) ∧
        ∀ top items, (initConfig ts).stack.head? = some top →
          gen.lr0Automaton.states[top.state]? = some items → ∀ p d, (⟨p, d⟩ : LR0Item) ∈ items →
            ((initConfig ts).stack.take d).reverse.map (·.symbol) =
              ((rhsOf exprGrammar.augment.productions p).take d).map some := by
  obtain ⟨gen, hgen, hg, -, hshape⟩ := LALR1Generator.create_augment exprGrammar_built rfl (by decide)
  obtain ⟨T, hT⟩ := gen.generateTable_ok id (hg ▸ hshape.isAugmented)
  exact ⟨gen, T, hgen, hT, fun ts =>
    driver_stack_invariant (Grammar.Built.augment exprGrammar_built) hgen hT ts .refl⟩

/-! ## Trees returned by `parse_internal` -/

/-- What `augment` keeps of a built grammar with plain names: its terminals, and its productions
after the new production 0. -/
theorem Grammar.Built.augment_keeps {g : Grammar} {S : Symbol} (hb : g.Built)
    (hS : g.startSymbol = some S) (hn : g.symbolTable.PlainNames) :
    g.augment.symbolTable.getTerminals = g.symbolTable.getTerminals ∧
      g.augment.productions.tail = g.productions := by
  have ha := hb.wf.isAugmented_eq_false hn
  exact ⟨by simp [Grammar.augment_symbolTable ha hS],
    by rw [Grammar.augment_productions ha hS, List.tail_cons]⟩

open LALR1Parser in
/-- For a built grammar with plain nonterminal names and start symbol `S`, and a table that
`generate_table` returns for its augmentation (with or without conflicts): a tree that
`parse_internal` returns on the tokens `w` followed by EOF tokens is a parse tree of the grammar
for `S`, each node a terminal without children or a nonterminal whose children are labelled by
the right-hand side of one of its productions (an empty one included), and its terminal nodes,
left to right, stand for the tokens of `w`. -/
theorem parse_tree_sound {g : Grammar} {S : Symbol} (hb : g.Built) (hS : g.startSymbol = some S)
    (hn : g.symbolTable.PlainNames) {gen : LALR1Generator}
    (hgen : LALR1Generator.create g.augment = some gen) {addr : Nat → Nat} {T : ParseTable}
    (hT : gen.generateTable addr = .ok T) {w : List Token} (hw : ∀ tok ∈ w, tok.isEof = false)
    {eof : Token} (heof : eof.isEof = true) {fuel : Nat} {tr : ParseNode}
    (h : parseInternal g.augment T ⟨w, eof⟩ fuel = some (.success (some tr))) :
    tr.symbol = S ∧ tr.IsTree g.symbolTable.getTerminals g.productions ∧
      List.Forall₂ LeafOf tr.yield w := by
  obtain ⟨gen', hgen', hg, hA, hshape⟩ := LALR1Generator.create_augment hb hS hn
  obtain rfl := Option.some.inj (hgen'.symm.trans hgen)
  have h0 := hb.augment.wf.looksAugmented_zero hshape.isAugmented
  obtain ⟨hterms, hprods⟩ := hb.augment_keeps hS hn
  rw [← hg] at hA hshape h0 h hterms hprods
  obtain ⟨c, hreach, hdone⟩ := parseLoop_done fuel _ h
  obtain ⟨heofc, hyield, tr', htr', hsym, htree⟩ :=
    accept_config hT hA hshape (stackPath_of_reach hT hA h0 hreach) hdone
  obtain rfl := Option.some.inj htr'
  obtain ⟨-, -, read, hwr, hread⟩ := wordInv_of_reach hT hA h0 hw heof hreach
  rw [unread, if_pos heofc, List.append_nil] at hwr
  refine ⟨hsym, hterms ▸ hprods ▸ htree, ?_⟩
  rwa [hwr, ← hyield]

/-- `S → A x`, `A → []` with start symbol `S`, built through the grammar API. -/
def emptyRhsGrammar : Grammar :=
  let g := (((Grammar.new.getNonterminal "S").2.getNonterminal "A").2.getTerminal "x"
    .identifier).2
  ((g.addProduction (.nonterminal "S") [.nonterminal "A", .terminal "x" .identifier])
    |>.addProduction (.nonterminal "A") []).setStartSymbol (.nonterminal "S")

theorem emptyRhsGrammar_built : emptyRhsGrammar.Built :=
  .setStartSymbol (.addProduction (.addProduction
    (.getTerminal _ _ (.getNonterminal _ (.getNonterminal _ .new)))
    (by decide) (by decide)) (by decide) (by decide)) (by decide)

/-- The tree `S(A, x)` of `emptyRhsGrammar` for the token `x`. -/
def sxTree : ParseNode :=
  .mk (.nonterminal "S") "" [.mk (.nonterminal "A") "" [], .mk (.terminal "x" .identifier) "x" []]

/-- On `x`, the parser of `S → A x, A → []` returns `S(A, x)`, whose node `A` has no children
and is not a terminal node. -/
theorem parse_tree_has_nonterminal_leaf :
    runParser emptyRhsGrammar xStream 10 = some (.success (some sxTree)) := by
  decide

open LALR1Parser in
theorem parse_tree_sound_emptyRhs :
    ∃ gen T, LALR1Generator.create emptyRhsGrammar.augment = some gen ∧
      gen.generateTable id = .ok T ∧
      parseInternal emptyRhsGrammar.augment T xStream 10 = some (.success (some sxTree)) ∧
      sxTree.symbol = .nonterminal "S" ∧
      sxTree.IsTree emptyRhsGrammar.symbolTable.getTerminals emptyRhsGrammar.productions ∧
      List.Forall₂ LeafOf sxTree.yield xStream.pending := by
  have key : ((LALR1Generator.create emptyRhsGrammar.augment).any fun gen =>
      (gen.generateTable id).toOption.any fun T =>
        parseInternal emptyRhsGrammar.augment T xStream 10 == some (.success (some sxTree))) =
        true := by
    decide
  cases hc : LALR1Generator.create emptyRhsGrammar.augment with
  | none => simp [hc] at key
  | some gen =>
    cases hT : gen.generateTable id with
    | error e => simp [hc, hT, Except.toOption] at key
    | ok T =>
      simp only [hc, hT, Option.any_some, Except.toOption, beq_iff_eq] at key
      exact ⟨gen, T, rfl, hT, key, parse_tree_sound emptyRhsGrammar_built rfl (by decide) hc hT
        (by decide) (by decide) key⟩

end Lalr1
