import Lalr1.Lalr
import Lalr1.Soundness

/-!
# The generated table covers the canonical LR(1) collection

`build_lalr_states` builds no LR(1) item: its states are the LR(0) states of the automaton, and
every complete item gets the whole FOLLOW set of its left-hand side. The canonical LR(1)
collection of the spec (`CanonicalLR1`) refines this. The cores of every LR(1) state lie in one
state of the automaton (`collection_covered`): the automaton's states are closed under
candidates, and its transitions hold the advanced items. Every lookahead is in FOLLOW
(`lookahead_mem_constFollowSet`). So every action that a state of the collection, merged by core
or not, asks for is written by `generate_table` to the cell of that automaton state
(`moves_cellAction`).

A table without conflicts therefore makes the grammar LALR(1) in the spec's sense
(`lalr1_of_conflicts_eq_nil`). The converse fails (`lalr1_grammar_conflicts`).
-/

namespace Lalr1

namespace CanonicalLR1

variable {prods : List Production} {eps : Symbol → Bool} {first : Symbol → List Symbol}

/-- The cores of the candidates of an LR(1) item are LR(0) candidates of its core. -/
theorem core_mem_closureCandidates {it it' : LR1Item} (h : it' ∈ candidates prods eps first it) :
    it'.core ∈ closureCandidates prods it.core := by
  unfold candidates at h
  split at h
  · rename_i x hx
    split at h
    · rename_i hxn
      obtain ⟨q, hq, hmem⟩ := List.mem_flatMap.mp h
      obtain ⟨b, -, rfl⟩ := List.mem_map.mp hmem
      exact mem_closureCandidates.mpr ⟨rfl, x, hx, hxn, hq⟩
    · simp at h
  · simp at h

/-- When the left-hand side of production 0 occurs in no right-hand side, no candidate is an
item of production 0. -/
theorem production_ne_zero_of_mem_candidates
    (hfresh : ∀ q, prods[0]? = some q → ∀ p ∈ prods, q.lhs ∉ p.rhs) {it it' : LR1Item}
    (h : it' ∈ candidates prods eps first it) : it'.production ≠ 0 := by
  obtain ⟨-, x, hx, -, hq⟩ := mem_closureCandidates.mp (core_mem_closureCandidates h)
  intro h0
  obtain ⟨q, hq0, rfl⟩ := mem_productionsFor.mp hq
  obtain ⟨p, hp, hxp⟩ := mem_rhs_of_nextSymbol hx
  exact hfresh q (by simpa [LR1Item.core, h0] using hq0) p hp hxp

/-- A merged state holds items of the states it merges. -/
theorem mem_of_mem_mergeByCore {states : List (List LR1Item)} {M : List LR1Item} {it : LR1Item}
    (hM : M ∈ mergeByCore states) (hit : it ∈ M) : ∃ I ∈ states, it ∈ I := by
  obtain ⟨I, -, rfl⟩ := List.mem_map.mp hM
  obtain ⟨J, hJ, hit⟩ := List.mem_flatMap.mp hit
  split at hit
  · exact ⟨J, hJ, hit⟩
  · simp at hit

/-- The cores of a merged state are cores of the state it was merged from. -/
theorem core_mem_of_mem_mergeByCore {states : List (List LR1Item)} {M : List LR1Item}
    (hM : M ∈ mergeByCore states) : ∃ I ∈ states, ∀ it ∈ M, ∃ it0 ∈ I, it0.core = it.core := by
  obtain ⟨I, hI, rfl⟩ := List.mem_map.mp hM
  refine ⟨I, hI, fun it hit => ?_⟩
  obtain ⟨J, -, hit⟩ := List.mem_flatMap.mp hit
  split at hit
  · rename_i hsame
    exact List.mem_map.mp ((sameItems_iff.mp hsame).2 (List.mem_map_of_mem _ hit))
  · simp at hit

/-! ## The cores of the collection lie in states of the automaton -/

section Covered

variable {t : SymbolTable} {A : LR0Automaton} (hA : A.Spec t prods)
include hA

/-- The LR(1) closure of a kernel whose cores lie in a state of the automaton has all its cores
there: the states are closed under candidates. -/
theorem closure_covered {s fuel : Nat} {C : List LR0Item} {K res : List LR1Item}
    (hs : A.states[s]? = some C) (hK : ∀ it ∈ K, it.core ∈ C)
    (h : closure prods eps first fuel K = some res) : ∀ it ∈ res, it.core ∈ C :=
  closure_forall (fun it => it.core ∈ C)
    (fun _ hit _ hit' => hA.mem_of_closureCandidates hs hit (core_mem_closureCandidates hit')) h hK

/-- `Goto` of an LR(1) state whose cores lie in state `s` has its cores in a state of the
automaton: in the target of the transition from `s`, or anywhere when the goto is empty. -/
theorem goto_covered {s fuel : Nat} {C : List LR0Item} {I I' : List LR1Item} {x : Symbol}
    (hs : A.states[s]? = some C) (hI : ∀ it ∈ I, it.core ∈ C)
    (h : goto prods eps first fuel I x = some I') :
    ∃ (s' : Nat) (C' : List LR0Item), A.states[s']? = some C' ∧ ∀ it ∈ I', it.core ∈ C' := by
  have hkernel : ∀ it ∈ I.filter (·.core.nextSymbol prods == some x),
      it ∈ I ∧ it.core.nextSymbol prods = some x := fun it hit => by
    simpa using List.mem_filter.mp hit
  by_cases hx : ∃ it ∈ I, it.core.nextSymbol prods = some x
  · obtain ⟨it0, hit0, hx0⟩ := hx
    obtain ⟨j, C', hj, hC', -⟩ := hA.advance_mem hs (hI it0 hit0) hx0
    refine ⟨j, C', hC', closure_covered hA hC' (fun it hit => ?_) h⟩
    obtain ⟨it1, h1, rfl⟩ := List.mem_map.mp hit
    obtain ⟨h1, hx1⟩ := hkernel it1 h1
    obtain ⟨j', C'', hj', hC'', hadv⟩ := hA.advance_mem hs (hI it1 h1) hx1
    obtain rfl := Option.some.inj (hj'.symm.trans hj)
    obtain rfl := Option.some.inj (hC''.symm.trans hC')
    exact hadv
  · refine ⟨0, _, hA.start, fun it hit => ?_⟩
    refine (closure_forall (fun _ => False) (fun _ h => h.elim) h (fun it hit => ?_) it hit).elim
    obtain ⟨it1, h1, -⟩ := List.mem_map.mp hit
    exact hx ⟨it1, hkernel it1 h1⟩

/-- The cores of every state of the canonical LR(1) collection lie in one state of the
automaton. -/
theorem collection_covered {fuel n : Nat} {I0 : List LR1Item} {states : List (List LR1Item)}
    (hI0 : closure prods eps first fuel [⟨0, 0, endOfInputSymbol⟩] = some I0)
    (h : collection prods eps first fuel n [I0] [I0] = some states) :
    ∀ I ∈ states, ∃ (s : Nat) (C : List LR0Item), A.states[s]? = some C ∧ ∀ it ∈ I, it.core ∈ C := by
  have h0 : ∃ (s : Nat) (C : List LR0Item), A.states[s]? = some C ∧ ∀ it ∈ I0, it.core ∈ C :=
    ⟨0, _, hA.start, closure_covered hA hA.start
      (by simpa [LR1Item.core] using subset_closure [(⟨0, 0⟩ : LR0Item)] (List.mem_singleton_self _))
      hI0⟩
  exact collection_forall_states _ (fun _ _ _ ⟨s, C, hs, hI⟩ hJ => goto_covered hA hs hI hJ) h
    (by simpa using h0) (by simpa using h0)

end Covered

/-- Merging by core keeps the cores of every state inside one state of the automaton. -/
theorem mergeByCore_covered {A : LR0Automaton} {states : List (List LR1Item)}
    (hcov : ∀ I ∈ states, ∃ (s : Nat) (C : List LR0Item), A.states[s]? = some C ∧ ∀ it ∈ I, it.core ∈ C) :
    ∀ M ∈ mergeByCore states, ∃ (s : Nat) (C : List LR0Item), A.states[s]? = some C ∧ ∀ it ∈ M, it.core ∈ C := by
  intro M hM
  obtain ⟨I, hI, hcore⟩ := core_mem_of_mem_mergeByCore hM
  obtain ⟨s, C, hs, hIC⟩ := hcov I hI
  refine ⟨s, C, hs, fun it hit => ?_⟩
  obtain ⟨it0, hit0, heq⟩ := hcore it hit
  exact heq ▸ hIC it0 hit0

/-- When no candidate is an item of production 0, every item of production 0 in the collection
has the lookahead `$` of the start item. -/
theorem collection_lookahead_zero
    (hfresh : ∀ q, prods[0]? = some q → ∀ p ∈ prods, q.lhs ∉ p.rhs)
    {fuel n : Nat} {I0 : List LR1Item} {states : List (List LR1Item)}
    (hI0 : closure prods eps first fuel [⟨0, 0, endOfInputSymbol⟩] = some I0)
    (h : collection prods eps first fuel n [I0] [I0] = some states) :
    ∀ I ∈ states, ∀ it ∈ I, it.production = 0 → it.lookahead = endOfInputSymbol := by
  have hc : ∀ it : LR1Item, (it.production = 0 → it.lookahead = endOfInputSymbol) →
      ∀ it' ∈ candidates prods eps first it,
        it'.production = 0 → it'.lookahead = endOfInputSymbol :=
    fun _ _ _ hit' h0 => absurd h0 (production_ne_zero_of_mem_candidates hfresh hit')
  have hI : ∀ it ∈ I0, it.production = 0 → it.lookahead = endOfInputSymbol :=
    closure_forall _ hc hI0 (by simp)
  exact collection_forall _ hc (fun _ h => h) h (by simpa using hI) (by simpa using hI)

/-! ## Moves and the cells of the table -/

/-- The table action a move of the canonical collection stands for; a shift stands for a shift
to any state. -/
def Move.Matches : Move → Action → Prop
  | .shift, .shift _ => True
  | .reduce p, .reduce q => p = q
  | .accept, .accept => True
  | _, _ => False

theorem Move.eq_of_matches {m m' : Move} {act : Action} (h : m.Matches act)
    (h' : m'.Matches act) : m = m' := by
  cases m <;> cases m' <;> cases act <;> simp_all [Move.Matches]

/-- A duplicate-free list whose members are all equal has at most one member. -/
theorem length_le_one_of_nodup {α : Type} {l : List α} (hl : l.Nodup)
    (h : ∀ x ∈ l, ∀ y ∈ l, x = y) : l.length ≤ 1 := by
  match l, hl, h with
  | [], _, _ => simp
  | [_], _, _ => simp
  | x :: y :: _, hl, h =>
    exact absurd (h x (List.mem_cons_self x _) y (List.mem_cons_of_mem x (List.mem_cons_self y _)) ▸
      List.mem_cons_self y _) (List.nodup_cons.mp hl).1

/-- At most one move on a lookahead when every move stands for an action of one cell and the
cell holds at most one action. -/
theorem length_moves_le_one {prods : List Production} {M : List LR1Item} {a : Symbol}
    {Cell : Action → Prop} (hcell : ∀ m ∈ moves prods M a, ∃ act, Cell act ∧ m.Matches act)
    (huniq : ∀ act act', Cell act → Cell act' → act = act') : (moves prods M a).length ≤ 1 :=
  length_le_one_of_nodup (List.nodup_dedup _) fun m hm m' hm' => by
    obtain ⟨act, hact, hm⟩ := hcell m hm
    obtain ⟨act', hact', hm'⟩ := hcell m' hm'
    exact Move.eq_of_matches hm (huniq act' act hact' hact ▸ hm')

end CanonicalLR1

namespace LALR1Generator

open CanonicalLR1

variable {gen : LALR1Generator} {S : Symbol}
  (hA : gen.lr0Automaton.Spec gen.grammar.symbolTable gen.grammar.productions)
  (hshape : gen.grammar.AugmentedShape S)
include hA hshape

/-- Every move that a set of LR(1) items asks for is an action `generate_table` writes to the
cell of an automaton state holding the items' cores, when the lookaheads are in FOLLOW and the
items of production 0 have the lookahead `$`. -/
theorem moves_cellAction {s : Nat} {C : List LR0Item} {M : List LR1Item}
    (hs : gen.lr0Automaton.states[s]? = some C) (hM : ∀ it ∈ M, it.core ∈ C)
    (hla : ∀ it ∈ M, LookaheadInFollow gen.grammar it)
    (h0 : ∀ it ∈ M, it.production = 0 → it.lookahead = endOfInputSymbol) (a : Symbol) :
    ∀ m ∈ moves gen.grammar.productions M a, ∃ act, gen.CellAction s a act ∧ m.Matches act := by
  intro m hm
  rcases List.mem_append.mp (List.mem_dedup.mp hm) with hm | hm
  · split at hm
    · rename_i hshift
      obtain rfl := List.mem_singleton.mp hm
      simp only [Bool.and_eq_true, List.any_eq_true, beq_iff_eq] at hshift
      obtain ⟨⟨it, hit, hnext⟩, hterm⟩ := hshift
      obtain ⟨j, -, hj, -, -⟩ := hA.advance_mem hs (hM it hit) hnext
      exact ⟨_, .shift hs (hM it hit) hnext hterm hj, trivial⟩
    · simp at hm
  · obtain ⟨it, hit, hmove⟩ := List.mem_filterMap.mp hm
    split at hmove
    · rename_i hcond
      simp only [Bool.and_eq_true, beq_iff_eq] at hcond
      obtain ⟨hcomp, rfl⟩ := hcond
      have hvalid := mem_itemUniverse.mp (hA.valid C (List.getElem?_mem hs) (hM it hit))
      obtain ⟨p, hp⟩ : ∃ p, gen.grammar.productions[it.production]? = some p :=
        ⟨_, List.getElem?_eq_getElem hvalid.1⟩
      have hiff := looksAugmented_iff hA hshape hs (hM it hit) hp
      by_cases hz : it.production = 0
      · obtain rfl : Move.accept = m := by simpa [hz] using hmove
        exact ⟨_, .accept hs (hM it hit) hp hcomp (hiff.mpr hz) (h0 it hit hz), trivial⟩
      · obtain rfl : Move.reduce it.production = m := by simpa [hz] using hmove
        exact ⟨_, .reduce hs (hM it hit) hp hcomp (Bool.eq_false_iff.mpr fun h => hz (hiff.mp h))
          (hla it hit p hp), rfl⟩
    · cases hmove

end LALR1Generator

open LALR1Generator CanonicalLR1

/-- On a grammar built through the API with plain names, a start symbol and productions of
nonterminals, augmented: when `generate_table` logs no conflict, the canonical LR(1) collection,
merged by core, asks for at most one action in every state on every lookahead. A grammar the
generator accepts is LALR(1). -/
theorem lalr1_of_conflicts_eq_nil {g : Grammar} {S : Symbol} (hb : g.Built)
    (hS : g.startSymbol = some S) (hn : g.symbolTable.PlainNames)
    (hlhs : ∀ p ∈ g.productions, p.lhs.isNonterminal = true) {addr : Nat → Nat}
    {gen : LALR1Generator} {T : ParseTable} (hgen : create g.augment = some gen)
    (hT : gen.generateTable addr = .ok T) (hc : T.conflicts = []) {fuel n : Nat}
    {I0 : List LR1Item} {states : List (List LR1Item)}
    (hI0 : CanonicalLR1.closure g.augment.productions g.augment.constEpsilon
      g.augment.constFirstSet fuel [⟨0, 0, endOfInputSymbol⟩] = some I0)
    (h : CanonicalLR1.collection g.augment.productions g.augment.constEpsilon
      g.augment.constFirstSet fuel n [I0] [I0] = some states) :
    ∀ M ∈ mergeByCore states, ∀ a, (moves g.augment.productions M a).length ≤ 1 := by
  obtain ⟨A, -, rfl⟩ := Option.map_eq_some'.mp hgen
  obtain ⟨gen', hgen', -, hA, hshape⟩ := create_augment hb hS hn
  obtain rfl := Option.some.inj (hgen'.symm.trans hgen)
  have ha := hb.wf.isAugmented_eq_false hn
  have hlhs' : ∀ p ∈ g.augment.productions, p.lhs.isNonterminal = true := by
    rw [Grammar.augment_productions ha hS]
    intro p hp
    rcases List.mem_cons.mp hp with rfl | hp
    · exact SymbolTable.getNonterminal_isNonterminal _ _
    · exact hlhs p hp
  have hla := lookahead_mem_constFollowSet hlhs'
    (Grammar.augment_startSymbol_eq_lhs ha (by simp [hS])) hI0 h
  have h0 := collection_lookahead_zero hshape.zero_fresh hI0 h
  have hcov := mergeByCore_covered (collection_covered hA hI0 h)
  intro M hM a
  obtain ⟨s, C, hs, hMC⟩ := hcov M hM
  have hitems : ∀ it ∈ M, ∃ I ∈ states, it ∈ I := fun _ hit => mem_of_mem_mergeByCore hM hit
  refine length_moves_le_one (moves_cellAction hA hshape hs hMC
    (fun it hit => ?_) (fun it hit => ?_) a)
    fun act act' => (generateTable_conflicts_eq_nil_iff hT).mp hc s a act act'
  · obtain ⟨I, hI, hit⟩ := hitems it hit
    exact hla I hI it hit
  · obtain ⟨I, hI, hit⟩ := hitems it hit
    exact h0 I hI it hit

/-- `S → a S | b` with start symbol `S`. -/
def listGrammar : Grammar :=
  let g := (((Grammar.new.getNonterminal "S").2.getTerminal "a" .identifier).2.getTerminal "b"
    .number).2
  ((g.addProduction (.nonterminal "S") [.terminal "a" .identifier, .nonterminal "S"]).addProduction
    (.nonterminal "S") [.terminal "b" .number]).setStartSymbol (.nonterminal "S")

theorem listGrammar_built : listGrammar.Built :=
  .setStartSymbol (.addProduction (.addProduction
    (.getTerminal _ _ (.getTerminal _ _ (.getNonterminal _ .new)))
    (by decide) (by decide)) (by decide) (by decide)) (by decide)

/-- The table of `listGrammar` has no conflict. -/
theorem listGrammar_conflict_free : ∃ gen T, create listGrammar.augment = some gen ∧
    gen.generateTable id = .ok T ∧ T.conflicts = [] := by
  obtain ⟨gen, hgen⟩ := Option.isSome_iff_exists.mp (by decide :
    (create listGrammar.augment).isSome = true)
  have hok := (by decide : (create listGrammar.augment).all (fun gen =>
    match gen.generateTable id with
    | .ok T => T.conflicts.isEmpty
    | .error _ => false) = true)
  rw [hgen, Option.all_some] at hok
  split at hok
  · exact ⟨gen, _, hgen, ‹_›, List.isEmpty_iff.mp hok⟩
  · cases hok

example : ∃ gen T I0 states, create listGrammar.augment = some gen ∧
    gen.generateTable id = .ok T ∧ T.conflicts = [] ∧
    CanonicalLR1.closure listGrammar.augment.productions listGrammar.augment.constEpsilon
      listGrammar.augment.constFirstSet 20 [⟨0, 0, endOfInputSymbol⟩] = some I0 ∧
    CanonicalLR1.collection listGrammar.augment.productions listGrammar.augment.constEpsilon
      listGrammar.augment.constFirstSet 20 20 [I0] [I0] = some states ∧
    ∀ M ∈ mergeByCore states, ∀ a, (moves listGrammar.augment.productions M a).length ≤ 1 := by
  obtain ⟨gen, T, hgen, hT, hc⟩ := listGrammar_conflict_free
  obtain ⟨states, hs⟩ := Option.isSome_iff_exists.mp (by decide :
    ((CanonicalLR1.closure listGrammar.augment.productions listGrammar.augment.constEpsilon
      listGrammar.augment.constFirstSet 20 [⟨0, 0, endOfInputSymbol⟩]).bind fun I0 =>
        CanonicalLR1.collection listGrammar.augment.productions
          listGrammar.augment.constEpsilon listGrammar.augment.constFirstSet 20 20
          [I0] [I0]).isSome = true)
  obtain ⟨I0, hI0, h⟩ := Option.bind_eq_some.mp hs
  exact ⟨gen, T, I0, states, hgen, hT, hc, hI0, h, lalr1_of_conflicts_eq_nil listGrammar_built rfl
    (by decide) (by decide) hgen hT hc hI0 h⟩

end Lalr1
