import Lalr1.Analysis

/-!
# LR(0) and LR(1) items, closure and goto

`LR0Item`, `LR1Item`, `LR0State::get_transition_symbols`, `get_items_for_symbol` and
`LR0Automaton::closure` (`lr_items.h`, `lr_items.cpp`).

An `LR0ItemSet` is a `std::set<LR0Item>` ordered by production pointer and dot. Only its members
matter to the generator (closure, goto and the comparison of whole item sets), so it is a list
here and two item sets are equal when each contains the other (`sameItems`).
-/

namespace Lalr1

/-- `class LR0Item`: a production (by index) and a dot position. -/
structure LR0Item where
  production : Nat
  dotPosition : Nat
  deriving DecidableEq, Repr

namespace LR0Item

variable (prods : List Production)

/-- `LR0Item::next_symbol`: `rhs[dot]`, or none when the dot is at the end. -/
def nextSymbol (it : LR0Item) : Option Symbol := (rhsOf prods it.production)[it.dotPosition]?

/-- `LR0Item::is_complete`. -/
def isComplete (it : LR0Item) : Bool := (rhsOf prods it.production).length ≤ it.dotPosition

/-- `LR0Item::advance`. -/
def advance (it : LR0Item) : LR0Item := ⟨it.production, it.dotPosition + 1⟩

theorem nextSymbol_eq_none_iff (it : LR0Item) :
    it.nextSymbol prods = none ↔ it.isComplete prods = true := by
  simp [nextSymbol, isComplete]

@[simp] theorem advance_production (it : LR0Item) : it.advance.production = it.production := rfl

@[simp] theorem advance_dotPosition (it : LR0Item) :
    it.advance.dotPosition = it.dotPosition + 1 := rfl

end LR0Item

/-- The items `(p, d)` of an existing production `p` with `d ≤ |rhs p|`. -/
def itemUniverse (prods : List Production) : List LR0Item :=
  (List.range prods.length).flatMap fun p =>
    (List.range ((rhsOf prods p).length + 1)).map (LR0Item.mk p)

theorem mem_itemUniverse {prods : List Production} {it : LR0Item} :
    it ∈ itemUniverse prods ↔
      it.production < prods.length ∧ it.dotPosition ≤ (rhsOf prods it.production).length := by
  rcases it with ⟨p, d⟩
  simp [itemUniverse, Nat.lt_succ_iff]

/-- Equality of two `LR0ItemSet`s. -/
def sameItems (a b : List LR0Item) : Bool := a.all (· ∈ b) && b.all (· ∈ a)

theorem sameItems_iff {a b : List LR0Item} : sameItems a b = true ↔ a ⊆ b ∧ b ⊆ a := by
  simp [sameItems, List.subset_def]

@[simp] theorem sameItems_self (a : List LR0Item) : sameItems a a = true :=
  sameItems_iff.mpr ⟨List.Subset.refl a, List.Subset.refl a⟩

theorem sameItems_comm (a b : List LR0Item) : sameItems a b = sameItems b a := by
  simp [sameItems, Bool.and_comm]

theorem sameItems_symm {a b : List LR0Item} (h : sameItems a b = true) : sameItems b a = true :=
  sameItems_comm a b ▸ h

theorem sameItems_trans {a b c : List LR0Item} (hab : sameItems a b = true)
    (hbc : sameItems b c = true) : sameItems a c = true := by
  rw [sameItems_iff] at *
  exact ⟨hab.1.trans hbc.1, hbc.2.trans hab.2⟩

/-! ## Closure -/

/-- The items a nonterminal after the dot of `item` brings in: `(q, 0)` for each of its
productions `q` (`productions_for`). -/
def closureCandidates (prods : List Production) (item : LR0Item) : List LR0Item :=
  match item.nextSymbol prods with
  | some x => if x.isNonterminal then (productionsFor prods x).map (⟨·, 0⟩) else []
  | none => []

/-- The set `new_items` of one round of `LR0Automaton::closure`: the candidates of the items of
`result` that are not in `result` yet. -/
def closureNew (prods : List Production) (result : List LR0Item) : List LR0Item :=
  ((result.flatMap (closureCandidates prods)).filter (· ∉ result)).dedup

/-- One round of the `while (changed)` loop of `closure`; `changed` is set exactly when an item
goes into `new_items`. -/
def closurePass (prods : List Production) (result : List LR0Item) : List LR0Item × Bool :=
  (result ++ closureNew prods result, !(closureNew prods result).isEmpty)

/-- `LR0Automaton::closure`. Every changing round adds an item `(q, 0)`, so `|prods| + 1`
rounds reach the fixed point. -/
def closure (prods : List Production) (items : List LR0Item) : List LR0Item :=
  whileChanged (closurePass prods) (prods.length + 1) items

/-- `get_items_for_symbol` followed by `advance`: the kernel of `Goto(I, X)`. -/
def gotoKernel (prods : List Production) (items : List LR0Item) (x : Symbol) : List LR0Item :=
  (items.filter (fun it => it.nextSymbol prods == some x)).map LR0Item.advance

/-- `LR0State::get_transition_symbols`: the symbols after a dot, iterated in pointer order. -/
def transitionSymbols (t : SymbolTable) (prods : List Production) (items : List LR0Item) :
    List Symbol :=
  orderBySymbolTable t (items.filterMap (·.nextSymbol prods))

/-! ## LR(1) items and LALR states -/

/-- `class LR1Item`: an LR(0) core and one lookahead. -/
structure LR1Item where
  production : Nat
  dotPosition : Nat
  lookahead : Symbol
  deriving DecidableEq, Repr

/-- `LR1Item::core`. -/
def LR1Item.core (it : LR1Item) : LR0Item := ⟨it.production, it.dotPosition⟩

/-- `class LALRState` after all its `add_lookahead` calls: `items_` holds `(c, la)` for every core
item `c` and every lookahead `la` recorded for it. -/
structure LALRState where
  id : Nat
  core : List LR0Item
  items : List LR1Item

/-- `LALRState::get_transition_symbols`: computed from `items_`, so a core item without
lookaheads contributes nothing. -/
def LALRState.transitionSymbols (t : SymbolTable) (prods : List Production) (st : LALRState) :
    List Symbol :=
  orderBySymbolTable t (st.items.filterMap (·.core.nextSymbol prods))

end Lalr1
