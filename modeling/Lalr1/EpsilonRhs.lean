import Lalr1.Driver

/-!
# Right-hand sides `[ε]`

`G4Parser::convert_parser_rules` writes an empty alternative as `A → [ε]`. Nullability and FIRST
read `[ε]` as empty, but the LR(0) construction treats ε as a symbol: the item `A → •ε` moves on
ε to a state `{A → ε•}`, and the driver never gets there, since it neither shifts nor takes a goto
on ε. So `A → [ε]` is never reduced, where `A → []` is (`epsilon_rhs_not_empty_rhs`). A grammar
whose only way out of a cycle of unit reductions is such a production gets a table without
conflicts on which the driver reduces forever (`parse_loops_on_epsilon_rhs`).
-/

namespace Lalr1

/-- The grammar `G` with every ε deleted from right-hand sides. -/
def Grammar.deleteEpsilon (g : Grammar) : Grammar :=
  { g with productions := g.productions.map fun p => ⟨p.lhs, p.rhs.filter (· != epsilonSymbol)⟩ }

/-- `S → A x`, `A → [ε]` with start symbol `S`. -/
def epsGrammar : Grammar :=
  let g := (((Grammar.new.getNonterminal "S").2.getNonterminal "A").2.getTerminal "x"
    .identifier).2
  ((g.addProduction (.nonterminal "S") [.nonterminal "A", .terminal "x" .identifier])
    |>.addProduction (.nonterminal "A") [epsilonSymbol]).setStartSymbol (.nonterminal "S")

/-- The token `x` and then end of input. -/
def xStream : TokenStream := ⟨[⟨.identifier, "x", 1, 1, 0⟩], ⟨.eofToken, "", 1, 2, 1⟩⟩

/-- The parser `create_lalr1_parser` builds for a grammar, run on a token stream for `fuel`
iterations. -/
def runParser (g : Grammar) (ts : TokenStream) (fuel : Nat) : Option ParseResult :=
  ((createLalr1Parser g id).bind Except.toOption).bind fun (g', t) =>
    LALR1Parser.parseInternal g' t ts fuel

/-- On `x`, the parser of `S → A x, A → [ε]` stops at `x` with an error, while the parser of
`S → A x, A → []` accepts `x` with the tree `S(A, x)`. -/
theorem epsilon_rhs_not_empty_rhs :
    runParser epsGrammar xStream 10 = some (.failure "Unexpected token 'x'" 1 1) ∧
      runParser epsGrammar.deleteEpsilon xStream 10 =
        some (.success (some (.mk (.nonterminal "S") ""
          [.mk (.nonterminal "A") "" [], .mk (.terminal "x" .identifier) "x" []]))) := by
  decide

/-! ## A run that never ends -/

/-- `S → A N`, `N → [ε]`, `A → B | c`, `B → A` with start symbol `S`. -/
def loopGrammar : Grammar :=
  let g := ((((Grammar.new.getNonterminal "S").2.getNonterminal "N").2.getNonterminal "A").2
    |>.getNonterminal "B").2
  let g := (g.getTerminal "c" .identifier).2
  ((((g.addProduction (.nonterminal "S") [.nonterminal "A", .nonterminal "N"])
    |>.addProduction (.nonterminal "N") [epsilonSymbol])
    |>.addProduction (.nonterminal "A") [.nonterminal "B"])
    |>.addProduction (.nonterminal "A") [.terminal "c" .identifier])
    |>.addProduction (.nonterminal "B") [.nonterminal "A"] |>.setStartSymbol (.nonterminal "S")

/-- The token `c` and then end of input. -/
def cStream : TokenStream := ⟨[⟨.identifier, "c", 1, 1, 0⟩], ⟨.eofToken, "", 1, 2, 1⟩⟩

namespace LALR1Parser

variable {g : Grammar} {t : ParseTable}

/-- A run never returns from a configuration of a kind that always steps to another of that
kind. -/
theorem parseLoop_eq_none_of_step (P : Config → Prop)
    (hstep : ∀ c, P c → ∃ c', parseStep g t c = some (.next c') ∧ P c') :
    ∀ n c, P c → parseLoop g t n c = none
  | 0, _, _ => rfl
  | n + 1, c, hc => by
    obtain ⟨c', h, hc'⟩ := hstep c hc
    simp only [parseLoop, h]
    exact parseLoop_eq_none_of_step P hstep n c' hc'

/-- On a table that reduces `B → A` in state 2 and `A → B` in state 3 at end of input, with the
gotos on `A` and `B` from state 0 leading to 2 and 3, the run on `c` (shifted to state 4, where
`A → c` is reduced) alternates between states 2 and 3 forever. -/
theorem parseInternal_cStream_eq_none
    (hc : terminalFor g ⟨.identifier, "c", 1, 1, 0⟩ = some (.terminal "c" .identifier))
    (h0 : t.getAction 0 (.terminal "c" .identifier) = .shift 4)
    (h4 : t.getAction 4 endOfInputSymbol = .reduce 4)
    (h2 : t.getAction 2 endOfInputSymbol = .reduce 5)
    (h3 : t.getAction 3 endOfInputSymbol = .reduce 3)
    (hA : t.getGoto 0 (.nonterminal "A") = some 2) (hB : t.getGoto 0 (.nonterminal "B") = some 3)
    (hp4 : g.productions[4]? = some ⟨.nonterminal "A", [.terminal "c" .identifier]⟩)
    (hp5 : g.productions[5]? = some ⟨.nonterminal "B", [.nonterminal "A"]⟩)
    (hp3 : g.productions[3]? = some ⟨.nonterminal "A", [.nonterminal "B"]⟩) (fuel : Nat) :
    parseInternal g t cStream fuel = none := by
  have heof : terminalFor g ⟨.eofToken, "", 1, 2, 1⟩ = some endOfInputSymbol := rfl
  let P : Config → Prop := fun c => c.token = ⟨.eofToken, "", 1, 2, 1⟩ ∧
    c.lexer = ⟨[], ⟨.eofToken, "", 1, 2, 1⟩⟩ ∧
    ∃ n, c.stack = [⟨2, some (.nonterminal "A"), some n⟩, ⟨0, none, none⟩] ∨
      c.stack = [⟨3, some (.nonterminal "B"), some n⟩, ⟨0, none, none⟩]
  have hstep : ∀ c, P c → ∃ c', parseStep g t c = some (.next c') ∧ P c' := by
    rintro ⟨stack, tok, lex⟩ ⟨rfl, rfl, n, hs | hs⟩ <;> subst hs
    · simp [parseStep, heof, h2, hp5, reduce, hB, P]
    · simp [parseStep, heof, h3, hp3, reduce, hA, P]
  match fuel with
  | 0 => rfl
  | 1 => simp [parseInternal, parseLoop, initConfig, TokenStream.next, cStream, parseStep, hc, h0]
  | n + 2 =>
    simp only [parseInternal, parseLoop, initConfig, TokenStream.next, cStream, parseStep, hc, h0]
    simp [parseLoop, parseStep, heof, h4, hp4, reduce, hA]
    exact parseLoop_eq_none_of_step P hstep n _ ⟨rfl, rfl, _, .inl rfl⟩

end LALR1Parser

/-! ## The table of `loopGrammar` -/

/-- The LR(0) states of `loopGrammar` after `augment`. -/
def loopStates : List (List LR0Item) :=
  [[⟨0, 0⟩, ⟨1, 0⟩, ⟨3, 0⟩, ⟨4, 0⟩, ⟨5, 0⟩], [⟨0, 1⟩], [⟨1, 1⟩, ⟨5, 1⟩, ⟨2, 0⟩], [⟨3, 1⟩],
    [⟨4, 1⟩], [⟨2, 1⟩], [⟨1, 2⟩]]

/-- The `set_action` calls of `generate_table` for `loopGrammar`. State 2 holds `N → •ε`, which
asks for nothing. -/
def loopWrites : List (Nat × Symbol × Action) :=
  [(0, .terminal "c" .identifier, .shift 4), (1, endOfInputSymbol, .accept),
    (2, endOfInputSymbol, .reduce 5), (3, endOfInputSymbol, .reduce 3),
    (4, endOfInputSymbol, .reduce 4), (5, endOfInputSymbol, .reduce 2),
    (6, endOfInputSymbol, .reduce 1)]

theorem build_loopGrammar : (LR0Automaton.build loopGrammar.augment).map (fun A =>
    (A.states, A.transitions 0 (.nonterminal "A"), A.transitions 0 (.nonterminal "B"),
      A.transitions 0 (.terminal "c" .identifier))) = some (loopStates, some 2, some 3, some 4) := by
  decide

/-- Only state 0 has a terminal after a dot: `c`, in `A → •c`. -/
theorem terminal_next_loopStates : ∀ p ∈ loopStates.enum, ∀ c ∈ p.2,
    ∀ x ∈ (c.nextSymbol loopGrammar.augment.productions).toList, x.isTerminal = true →
      p.1 = 0 ∧ x = .terminal "c" .identifier := by
  decide

/-- A generator with the states of `loopGrammar` and, of its transitions, the one on a terminal:
all that the writes of `generate_table` read of the automaton (`mem_tableWrites_congr`). -/
def loopShiftGen : LALR1Generator :=
  ⟨loopGrammar.augment,
    ⟨loopStates, fun s x => if s = 0 ∧ x = .terminal "c" .identifier then some 4 else none⟩⟩

theorem tableWrites_loopShiftGen : loopShiftGen.tableWrites id = loopWrites := by
  decide

/-- No two writes of `loopWrites` go to one cell. -/
theorem loopWrites_cells_unique : ∀ w ∈ loopWrites, ∀ w' ∈ loopWrites, w.1 = w'.1 →
    w.2.1 = w'.2.1 → w.2.2 = w'.2.2 := by
  decide

/-- The generator of `loopGrammar` asks for the writes `loopWrites`, and its table has no
conflict and holds them; the goto entries of state 0 on `A` and `B` are 2 and 3. -/
theorem generateTable_loopGrammar :
    ∃ gen T, LALR1Generator.create loopGrammar.augment = some gen ∧
      gen.generateTable id = .ok T ∧ T.conflicts = [] ∧
      (∀ s a act, (s, a, act) ∈ loopWrites → T.getAction s a = act) ∧
      T.getGoto 0 (.nonterminal "A") = some 2 ∧ T.getGoto 0 (.nonterminal "B") = some 3 := by
  obtain ⟨A, hbuild, hfacts⟩ := Option.map_eq_some'.mp build_loopGrammar
  simp only [Prod.mk.injEq] at hfacts
  obtain ⟨hstates, hA2, hB3, hc4⟩ := hfacts
  have hgen : LALR1Generator.create loopGrammar.augment = some ⟨loopGrammar.augment, A⟩ := by
    simp [LALR1Generator.create, hbuild]
  have hspec := LALR1Generator.spec_of_create hgen
  obtain ⟨T, hT⟩ := LALR1Generator.generateTable_ok ⟨loopGrammar.augment, A⟩ id
    (by decide : loopGrammar.augment.isAugmented = true)
  have hW : ∀ w, w ∈ LALR1Generator.tableWrites ⟨loopGrammar.augment, A⟩ id ↔ w ∈ loopWrites := by
    rw [← tableWrites_loopShiftGen]
    refine LALR1Generator.mem_tableWrites_congr _ id rfl hstates fun s core hcore c hc x hx hterm => ?_
    rw [hstates] at hcore
    obtain ⟨rfl, rfl⟩ := terminal_next_loopStates (s, core) (List.mem_enum_iff_getElem?.mpr hcore)
      c hc x (by simp [hx]) hterm
    simpa [loopShiftGen, LR0Automaton.getTransition] using hc4
  have hconf : T.conflicts = [] := (LALR1Generator.generateTable_conflicts_eq_nil_iff hT).mpr
    fun s a act act' h h' => by
      rw [← LALR1Generator.mem_tableWrites_iff, hW] at h h'
      exact loopWrites_cells_unique _ h _ h' rfl rfl
  obtain ⟨sA, hgA, htA⟩ := LALR1Generator.getGoto_of_mem hT hspec hspec.start (i := 3)
    (p := ⟨.nonterminal "A", [.nonterminal "B"]⟩)
    (by decide : (⟨3, 0⟩ : LR0Item) ∈ closure loopGrammar.augment.productions [⟨0, 0⟩]) (by decide)
    rfl (by decide : loopGrammar.augment.constFirstSet (.nonterminal "A") ≠ [])
  obtain ⟨sB, hgB, htB⟩ := LALR1Generator.getGoto_of_mem hT hspec hspec.start (i := 5)
    (p := ⟨.nonterminal "B", [.nonterminal "A"]⟩)
    (by decide : (⟨5, 0⟩ : LR0Item) ∈ closure loopGrammar.augment.productions [⟨0, 0⟩]) (by decide)
    rfl (by decide : loopGrammar.augment.constFirstSet (.nonterminal "B") ≠ [])
  refine ⟨_, T, hgen, hT, hconf, fun s a act h => ?_, hgA.trans (htA.symm.trans hA2),
    hgB.trans (htB.symm.trans hB3)⟩
  exact LALR1Generator.getAction_eq_of_tableWrites hT ((hW _).mpr h)
    fun w hw hs ha => loopWrites_cells_unique w ((hW w).mp hw) _ h hs ha

/-- `create_lalr1_parser` accepts `loopGrammar` (its table has no conflicts), and the parser's run
on `c` never returns: after `A → c` it reduces `B → A` and `A → B` in turn forever. -/
theorem parse_loops_on_epsilon_rhs :
    ∃ g t, createLalr1Parser loopGrammar id = some (.ok (g, t)) ∧
      ∀ fuel, LALR1Parser.parseInternal g t cStream fuel = none := by
  obtain ⟨gen, T, hgen, hT, hconf, hact, hA, hB⟩ := generateTable_loopGrammar
  refine ⟨loopGrammar.augment, T, by simp [createLalr1Parser, hgen, hT, ParseTable.hasConflicts, hconf],
    LALR1Parser.parseInternal_cStream_eq_none (by decide) (hact _ _ _ (by decide))
      (hact _ _ _ (by decide)) (hact _ _ _ (by decide)) (hact _ _ _ (by decide)) hA hB rfl rfl rfl⟩

end Lalr1
