import Lalr1.TableWrites
import Lalr1.Derivation

/-!
# LALR(1) grammars and the generated table

The spec calls a grammar LALR(1) when its canonical LR(1) collection, with states merged by their
LR(0) cores, asks for at most one action in every state on every lookahead. `CanonicalLR1`
builds that collection from the spec's description: the closure of `[S' → ·S, $]`, closed under
`Goto` on every symbol after a dot, an item `[A → α·Bβ, a]` bringing `[B → ·γ, b]` for every
`b ∈ FIRST(βa)`; `isLALR1` merges its states by core and counts the actions.

Every lookahead of every item of that collection is in FOLLOW of the item's left-hand side
(`lookahead_mem_constFollowSet`): closure and `Goto` keep it, by the rule `compute_follow_sets`
is closed under.

`build_lalr_states` does not propagate lookaheads: it gives every complete item the whole FOLLOW
set of its left-hand side, so the table is the SLR(1) table. The grammar of assignments through
pointers, `S → L = R | R`, `L → * R | id`, `R → L`, is LALR(1), but `=` is in `FOLLOW(R)`, so the
state of `S → L · = R` and `R → L ·` gets both a shift and a reduce on `=`
(`lalr1_grammar_conflicts`).
-/

namespace Lalr1

namespace CanonicalLR1

variable (prods : List Production) (eps : Symbol → Bool) (first : Symbol → List Symbol)

/-- Modelled from the spec: the items `[B → ·γ, b]` that an item `[A → α·Bβ, a]` brings into a
closure, for every `b ∈ FIRST(βa)`. -/
def candidates (it : LR1Item) : List LR1Item :=
  match it.core.nextSymbol prods with
  | some x =>
    if x.isNonterminal then
      let las := (firstSetSeq eps first
        ((rhsOf prods it.production).drop (it.dotPosition + 1) ++ [it.lookahead])).filter
          (!·.isEpsilon)
      (productionsFor prods x).flatMap fun q => las.map (LR1Item.mk q 0)
    else []
  | none => []

/-- Modelled from the spec: the LR(1) closure, adding candidates until none is new; `none` when
the fuel runs out first. -/
def closure : Nat → List LR1Item → Option (List LR1Item)
  | 0, _ => none
  | n + 1, items =>
    let new := ((items.flatMap (candidates prods eps first)).filter (· ∉ items)).dedup
    if new.isEmpty then some items else closure n (items ++ new)

/-- Equality of two sets of LR(1) items. -/
def sameItems1 (a b : List LR1Item) : Bool := a.all (· ∈ b) && b.all (· ∈ a)

/-- Modelled from the spec: `Goto(I, X)`, the closure of the items of `I` with `X` after the dot,
the dot moved over `X`. -/
def goto (fuel : Nat) (items : List LR1Item) (x : Symbol) : Option (List LR1Item) :=
  closure prods eps first fuel ((items.filter (·.core.nextSymbol prods == some x)).map
    fun it => ⟨it.production, it.dotPosition + 1, it.lookahead⟩)

/-- Modelled from the spec: the canonical collection, a worklist of states whose `Goto` on every
symbol after a dot is added unless an equal set of items is there already; `none` when a closure
or the outer fuel runs out. -/
def collection (fuel : Nat) :
    Nat → List (List LR1Item) → List (List LR1Item) → Option (List (List LR1Item))
  | _, states, [] => some states
  | 0, _, _ :: _ => none
  | n + 1, states, I :: work =>
    match (I.filterMap (·.core.nextSymbol prods)).dedup.mapM (goto prods eps first fuel I) with
    | none => none
    | some targets =>
      let (states, new) := targets.foldl (fun (acc : List (List LR1Item) × List (List LR1Item)) J =>
        if acc.1.any (sameItems1 J) then acc else (acc.1 ++ [J], acc.2 ++ [J])) (states, [])
      collection fuel n states (work ++ new)

/-- What an LR(1) state asks the parser to do on a lookahead. -/
inductive Move
  | shift
  | reduce (p : Nat)
  | accept
  deriving DecidableEq, Repr

/-- Modelled from the spec: the actions a set of LR(1) items asks for on the lookahead `a`: shift
when an item has the terminal `a` after its dot, and for every complete item with lookahead `a`,
accept for the augmented production and reduce for any other. -/
def moves (items : List LR1Item) (a : Symbol) : List Move :=
  ((if items.any (fun it => it.core.nextSymbol prods == some a) && a.isTerminal then [Move.shift]
    else []) ++
    items.filterMap fun it =>
      if it.core.isComplete prods && it.lookahead == a then
        some (if it.production == 0 then Move.accept else Move.reduce it.production)
      else none).dedup

/-- Modelled from the spec: every state merged with all the states of the same LR(0) core. -/
def mergeByCore (states : List (List LR1Item)) : List (List LR1Item) :=
  states.map fun I => states.flatMap fun J =>
    if sameItems (I.map LR1Item.core) (J.map LR1Item.core) then J else []

end CanonicalLR1

/-- Modelled from the spec: an augmented grammar is LALR(1) when its canonical LR(1) collection,
states merged by core, asks for at most one action in every state on every terminal and `$`.
The closures get as many rounds as there are LR(1) items over the table's symbols, and the
collection as many states as there are sets of them; a construction that does not finish within
them gives `false`. -/
def isLALR1 (g : Grammar) : Bool :=
  let fuel := (itemUniverse g.productions).length * (g.symbolTable.symbols.length + 1) + 1
  match CanonicalLR1.closure g.productions g.constEpsilon g.constFirstSet fuel
      [⟨0, 0, endOfInputSymbol⟩] with
  | none => false
  | some I0 =>
    match CanonicalLR1.collection g.productions g.constEpsilon g.constFirstSet fuel (2 ^ fuel)
        [I0] [I0] with
    | none => false
    | some states =>
      (CanonicalLR1.mergeByCore states).all fun M =>
        (endOfInputSymbol :: g.symbolTable.getTerminals).all fun a =>
          (CanonicalLR1.moves g.productions M a).length ≤ 1

/-! ## The lookaheads of the canonical collection -/

/-- The results of a `mapM` in `Option` are results of the function. -/
theorem exists_of_mapM_eq_some {α β : Type} {f : α → Option β} :
    ∀ {xs : List α} {ys : List β}, xs.mapM f = some ys → ∀ y ∈ ys, ∃ x ∈ xs, f x = some y
  | [], ys, h, y, hy => by
    obtain rfl : [] = ys := Option.some.inj h
    cases hy
  | x :: xs, ys, h, y, hy => by
    rw [List.mapM_cons] at h
    cases hx : f x with
    | none => rw [hx] at h; cases h
    | some b =>
      cases hxs : xs.mapM f with
      | none => rw [hx, hxs] at h; cases h
      | some bs =>
        rw [hx, hxs] at h
        obtain rfl : b :: bs = ys := Option.some.inj h
        rcases List.mem_cons.mp hy with rfl | hy
        · exact ⟨x, List.mem_cons_self x xs, hx⟩
        · obtain ⟨x', hx', hfx⟩ := exists_of_mapM_eq_some hxs y hy
          exact ⟨x', List.mem_cons_of_mem x hx', hfx⟩

namespace CanonicalLR1

variable {prods : List Production} {eps : Symbol → Bool} {first : Symbol → List Symbol}

/-- Every state of the collection satisfies a property of states that `Goto` keeps, when the
states it starts from do: the worklist only ever adds `Goto` targets. -/
theorem collection_forall_states (Q : List LR1Item → Prop) {fuel : Nat}
    (hgoto : ∀ I x J, Q I → goto prods eps first fuel I x = some J → Q J) :
    ∀ {n : Nat} {states work res : List (List LR1Item)},
    collection prods eps first fuel n states work = some res →
      (∀ I ∈ states, Q I) → (∀ I ∈ work, Q I) → ∀ I ∈ res, Q I
  | n, states, [], res, h, hs, _ => by
    obtain rfl : states = res := by simpa [collection] using h
    exact hs
  | 0, _, _ :: _, _, h, _, _ => by simp [collection] at h
  | n + 1, states, I :: work, res, h, hs, hw => by
    simp only [collection] at h
    split at h
    · cases h
    · rename_i targets htargets
      have ht : ∀ J ∈ targets, Q J := fun J hJ => by
        obtain ⟨x, -, hx⟩ := exists_of_mapM_eq_some htargets J hJ
        exact hgoto I x J (hw I (List.mem_cons_self I work)) hx
      have hfold := foldl_invariant (fun acc : List (List LR1Item) × List (List LR1Item) =>
          (∀ I ∈ acc.1, Q I) ∧ ∀ I ∈ acc.2, Q I)
        (fun (acc : List (List LR1Item) × List (List LR1Item)) J =>
          if acc.1.any (sameItems1 J) then acc else (acc.1 ++ [J], acc.2 ++ [J])) targets (states, [])
        ⟨hs, by simp⟩ fun acc J hJ hacc => by
          dsimp only
          split
          · exact hacc
          · simp only [List.mem_append, List.mem_singleton]
            exact ⟨fun I hI => hI.elim (hacc.1 I) (fun e => e ▸ ht J hJ),
              fun I hI => hI.elim (hacc.2 I) (fun e => e ▸ ht J hJ)⟩
      exact collection_forall_states Q hgoto h hfold.1 fun I hI =>
        (List.mem_append.mp hI).elim (fun hI => hw I (List.mem_cons_of_mem _ hI)) (hfold.2 I)

section Invariant

variable (P : LR1Item → Prop) (hc : ∀ it, P it → ∀ it' ∈ candidates prods eps first it, P it')
include hc

/-- A property of items that candidates inherit holds of a closure when it holds of the kernel. -/
theorem closure_forall : ∀ {n : Nat} {items res : List LR1Item},
    closure prods eps first n items = some res → (∀ it ∈ items, P it) → ∀ it ∈ res, P it
  | 0, _, _, h, _ => by simp [closure] at h
  | n + 1, items, res, h, hi => by
    dsimp only [closure] at h
    split at h
    · cases h
      exact hi
    · refine closure_forall h fun it hit => ?_
      rcases List.mem_append.mp hit with hit | hit
      · exact hi it hit
      · obtain ⟨it0, h0, hcand⟩ :=
          List.mem_flatMap.mp (List.mem_filter.mp (List.mem_dedup.mp hit)).1
        exact hc it0 (hi it0 h0) it hcand

variable (hadv : ∀ it : LR1Item, P it → P ⟨it.production, it.dotPosition + 1, it.lookahead⟩)
include hadv

theorem goto_forall {fuel : Nat} {items res : List LR1Item} {x : Symbol}
    (h : goto prods eps first fuel items x = some res) (hi : ∀ it ∈ items, P it) :
    ∀ it ∈ res, P it :=
  closure_forall P hc h fun it hit => by
    obtain ⟨it0, h0, rfl⟩ := List.mem_map.mp hit
    exact hadv it0 (hi it0 (List.mem_filter.mp h0).1)

/-- Every state of the collection satisfies a property of items that closure and `Goto` keep,
when the states it starts from do. -/
theorem collection_forall {fuel n : Nat} {states work res : List (List LR1Item)}
    (h : collection prods eps first fuel n states work = some res)
    (hs : ∀ I ∈ states, ∀ it ∈ I, P it) (hw : ∀ I ∈ work, ∀ it ∈ I, P it) :
    ∀ I ∈ res, ∀ it ∈ I, P it :=
  collection_forall_states (fun I => ∀ it ∈ I, P it)
    (fun _ _ _ hI hJ => goto_forall P hc hadv hJ hI) h hs hw

end Invariant

end CanonicalLR1

/-- The lookahead of an LR(1) item is in FOLLOW of its production's left-hand side. -/
def LookaheadInFollow (g : Grammar) (it : LR1Item) : Prop :=
  ∀ p, g.productions[it.production]? = some p → it.lookahead ∈ g.constFollowSet p.lhs

section Lookaheads

variable {g : Grammar} (hlhs : ∀ p ∈ g.productions, p.lhs.isNonterminal = true)
include hlhs

/-- A candidate's lookahead is in FOLLOW of its left-hand side when the lookahead of the item that
brings it is: a member of `FIRST(β)` is, by the rule at the position of `B` in `A → αBβ`, and the
lookahead `a` of `[A → α·Bβ, a]` is when `β` is nullable, since `FIRST(a) = {a}`. -/
theorem candidates_lookahead {it it' : LR1Item} (hit : LookaheadInFollow g it)
    (hit' : it' ∈ CanonicalLR1.candidates g.productions g.constEpsilon g.constFirstSet it) :
    LookaheadInFollow g it' := by
  have hwithin : SetsWithin g.symbolTable g.constFirstSet := computeFirstSets_within
  unfold CanonicalLR1.candidates at hit'
  split at hit'
  · rename_i x hx
    split at hit'
    · rename_i hxn
      obtain ⟨q, hq, hmem⟩ := List.mem_flatMap.mp hit'
      obtain ⟨b, hb, rfl⟩ := List.mem_map.mp hmem
      intro p' hp'
      obtain ⟨p'', hp'', hlhs'⟩ := mem_productionsFor.mp hq
      obtain rfl : p'' = p' := Option.some.inj (hp''.symm.trans hp')
      obtain ⟨p, hp⟩ := production_of_nextSymbol hx
      replace hp : g.productions[it.production]? = some p := hp
      have hd : p.rhs[it.dotPosition]? = some x := by
        simpa [LR0Item.nextSymbol, rhsOf, hp, LR1Item.core] using hx
      obtain ⟨hlt, hget⟩ := List.getElem?_eq_some_iff.mp hd
      have hsplit : p.rhs = p.rhs.take it.dotPosition ++ x :: p.rhs.drop (it.dotPosition + 1) := by
        rw [← hget, List.cons_getElem_drop_succ, List.take_append_drop]
      have hnew : followNew g.constEpsilon g.constFirstSet g.constFollowSet p.lhs x
          (p.rhs.drop (it.dotPosition + 1)) = g.constFollowSet x :=
        computeFollowSets_closed hwithin g.startSymbol (List.getElem?_mem hp) hsplit hxn
      simp only [rhsOf, hp, Option.map_some', Option.getD_some, List.mem_filter,
        Bool.not_eq_true'] at hb
      obtain ⟨hb, hbe⟩ := hb
      rw [hlhs', ← hnew]
      rcases mem_firstSetSeq_iff.mp hb with ⟨rfl, -⟩ | ⟨-, hf⟩
      · exact absurd hbe (by decide)
      rcases firstOf_append.mp hf with hf | ⟨hβ, hf | ⟨-, hf⟩⟩
      · exact mem_followNew_of_first (mem_firstSetSeq_iff.mpr (.inr ⟨hbe, hf⟩)) hbe
      · have ha := hit p hp
        have hnt : it.lookahead.isNonterminal = false := by
          rcases List.mem_append.mp ((computeFollowSets_within hwithin g.startSymbol _).2 ha) with
            ha | ha
          · simp only [SymbolTable.getTerminals, List.mem_filter, Symbol.isTerminal_iff] at ha
            simp [Symbol.isNonterminal, ha.2]
          · simp only [List.mem_cons, List.mem_singleton, List.not_mem_nil, or_false] at ha
            rcases ha with ha | ha <;> rw [ha] <;> rfl
        have hfa : g.constFirstSet it.lookahead = firstInit g.symbolTable it.lookahead :=
          computeFirstSets_of_not_lhs fun q hq e => by simp [← e, hlhs q hq] at hnt
        rw [hfa, firstInit] at hf
        split at hf
        · obtain rfl := List.mem_singleton.mp hf
          exact subset_followNew (by simp [List.all_eq_true.mpr hβ]) ha
        · simp at hf
      · exact hf.elim
    · simp at hit'
  · simp at hit'

/-- The lookahead of every item of every state of the canonical LR(1) collection is in FOLLOW
of the item's left-hand side, when productions rewrite nonterminals and the start symbol is the
left-hand side of production 0, as in an augmented grammar. `build_lalr_states` gives every
complete item the whole FOLLOW set of its left-hand side, a superset of these lookaheads. -/
theorem lookahead_mem_constFollowSet
    (hS : ∀ p, g.productions[0]? = some p → g.startSymbol = some p.lhs)
    {fuel n : Nat} {I0 : List LR1Item} {states : List (List LR1Item)}
    (hI0 : CanonicalLR1.closure g.productions g.constEpsilon g.constFirstSet fuel
      [⟨0, 0, endOfInputSymbol⟩] = some I0)
    (h : CanonicalLR1.collection g.productions g.constEpsilon g.constFirstSet fuel n [I0] [I0] =
      some states) :
    ∀ I ∈ states, ∀ it ∈ I, LookaheadInFollow g it := by
  have hc : ∀ it, LookaheadInFollow g it → ∀ it' ∈ CanonicalLR1.candidates g.productions
      g.constEpsilon g.constFirstSet it, LookaheadInFollow g it' :=
    fun _ hit _ => candidates_lookahead hlhs hit
  have hI : ∀ it ∈ I0, LookaheadInFollow g it :=
    CanonicalLR1.closure_forall _ hc hI0 fun it hit p hp => by
      obtain rfl := List.mem_singleton.mp hit
      rw [Grammar.constFollowSet, hS p hp]
      exact mem_computeFollowSets_start
  exact CanonicalLR1.collection_forall _ hc (fun _ h => h) h (by simpa using hI) (by simpa using hI)

end Lookaheads

/-- `S → L = R | R`, `L → * R | id`, `R → L` with start symbol `S`: assignments through pointers. -/
def pointerGrammar : Grammar :=
  let g := (((((Grammar.new.getNonterminal "S").2.getNonterminal "L").2.getNonterminal "R").2
    |>.getTerminal "=" .assign).2.getTerminal "*" .multiply).2.getTerminal "id" .identifier |>.2
  (((((g.addProduction (.nonterminal "S")
        [.nonterminal "L", .terminal "=" .assign, .nonterminal "R"])
    |>.addProduction (.nonterminal "S") [.nonterminal "R"])
    |>.addProduction (.nonterminal "L") [.terminal "*" .multiply, .nonterminal "R"])
    |>.addProduction (.nonterminal "L") [.terminal "id" .identifier])
    |>.addProduction (.nonterminal "R") [.nonterminal "L"]).setStartSymbol (.nonterminal "S")

theorem pointerGrammar_built : pointerGrammar.Built :=
  .setStartSymbol (.addProduction (.addProduction (.addProduction (.addProduction (.addProduction
    (.getTerminal _ _ (.getTerminal _ _ (.getTerminal _ _
      (.getNonterminal _ (.getNonterminal _ (.getNonterminal _ .new))))))
    (by decide) (by decide)) (by decide) (by decide)) (by decide) (by decide)) (by decide)
    (by decide)) (by decide) (by decide)) (by decide)

open LALR1Generator

/-- The pointer grammar, augmented, is LALR(1), and whatever the allocation order its table has a
conflict: state 2 of the automaton is `{S → L · = R, R → L ·}`, which shifts `=` to state 8 and
reduces `R → L` on `=`, since `=` is in `FOLLOW(R)`. -/
theorem lalr1_grammar_conflicts (addr : Nat → Nat) :
    pointerGrammar.augment.Built ∧ pointerGrammar.augment.isAugmented = true ∧
      isLALR1 pointerGrammar.augment = true ∧
      ∃ gen T, create pointerGrammar.augment = some gen ∧ gen.generateTable addr = .ok T ∧
        T.hasConflicts = true := by
  obtain ⟨A, hA⟩ : ∃ A, LR0Automaton.build pointerGrammar.augment = some A :=
    Option.isSome_iff_exists.mp (by decide)
  have hstates := (by decide : (LR0Automaton.build pointerGrammar.augment).all (fun A =>
    A.states[2]? == some [⟨1, 1⟩, ⟨5, 1⟩] &&
      A.getTransition 2 (.terminal "=" .assign) == some 8) = true)
  simp only [hA, Option.all_some, Bool.and_eq_true, beq_iff_eq] at hstates
  obtain ⟨h2, h8⟩ := hstates
  obtain ⟨T, hT⟩ := generateTable_ok ⟨pointerGrammar.augment, A⟩ addr
    (by decide : pointerGrammar.augment.isAugmented = true)
  have hshift : CellAction ⟨pointerGrammar.augment, A⟩ 2 (.terminal "=" .assign) (.shift 8) :=
    .shift h2 (List.mem_cons_self (⟨1, 1⟩ : LR0Item) _)
      (by decide : LR0Item.nextSymbol pointerGrammar.augment.productions ⟨1, 1⟩ =
        some (.terminal "=" .assign)) rfl h8
  have hreduce : CellAction ⟨pointerGrammar.augment, A⟩ 2 (.terminal "=" .assign) (.reduce 5) :=
    .reduce h2 (List.mem_cons_of_mem _ (List.mem_singleton_self (⟨5, 1⟩ : LR0Item)))
      (by decide : pointerGrammar.augment.productions[5]? =
        some ⟨.nonterminal "R", [.nonterminal "L"]⟩)
      (by decide : LR0Item.isComplete pointerGrammar.augment.productions ⟨5, 1⟩ = true) rfl
      (by decide : Symbol.terminal "=" .assign ∈ pointerGrammar.augment.constFollowSet (.nonterminal "R"))
  have hconf : T.conflicts ≠ [] := fun h =>
    absurd ((generateTable_conflicts_eq_nil_iff hT).mp h _ _ _ _ hshift hreduce) (by decide)
  refine ⟨.augment pointerGrammar_built, by decide, by decide, _, T, by simp [create, hA], hT, ?_⟩
  simpa [ParseTable.hasConflicts] using hconf

end Lalr1
