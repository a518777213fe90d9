import Mathlib.Data.List.Sort
import Lalr1.Automaton

/-!
# The parse table and its generator

`Action`, `ParseTable` and `LALR1Generator` (`parse_table.h`, `parse_table.cpp`).

`build_lalr_states` gives each item of each LR(0) state a lookahead set: `{$}` for an item that
passes the accept test, `FOLLOW(lhs)` for any other complete item, `{a}` for an item with a
terminal `a` after the dot, `FIRST(B)` for one with a nonterminal `B` after the dot, and nothing
otherwise. `generate_table` then walks the LR(1) items of each state: an item that passes the
accept test sets `Accept` on its lookahead, any other complete item sets `Reduce`, and an item
with a terminal after the dot sets `Shift` to the automaton's transition. Goto entries come
from the symbols after a dot among the LR(1) items.

`std::set<LR1Item>` orders items by production pointer, dot and lookahead pointer. The order
decides which of two conflicting actions stays in a cell, so it is a parameter here: `addr`
gives the address of each production object; symbols are ordered as in the symbol table.
-/

namespace Lalr1

/-- `struct Action`. The `value` of `Accept` and `Error` is always `-1`, so it is not stored. -/
inductive Action
  | shift (state : Nat)
  | reduce (production : Nat)
  | accept
  | error
  deriving DecidableEq, Repr

/-- `Action::to_string`. -/
def Action.toString : Action → String
  | .shift s => "s" ++ Nat.repr s
  | .reduce p => "r" ++ Nat.repr p
  | .accept => "acc"
  | .error => "err"

/-- `Action::is_error`. -/
def Action.isError (a : Action) : Bool := a == .error

/-- `class ParseTable`: the two maps and the conflict log. The constructor's symbol sets are read
only by `print_table`; its state count, the number of LALR states, is read by `print_table` and by
the code generator, which is given it as an argument (`CppCodeGenerator.generate`). -/
structure ParseTable where
  actionTable : Nat → Symbol → Option Action
  gotoTable : Nat → Symbol → Option Nat
  conflicts : List String

namespace ParseTable

def empty : ParseTable := ⟨fun _ _ => none, fun _ _ => none, []⟩

/-- The conflict description `set_action` logs. -/
def conflictMessage (state : Nat) (terminal : Symbol) (existing new : Action) : String :=
  "Action conflict in state " ++ Nat.repr state ++ " on terminal " ++ terminal.name ++
    ": existing=" ++ existing.toString ++ ", new=" ++ new.toString

/-- `ParseTable::set_action`: log a conflict when the cell holds a different action, then
overwrite the cell. -/
def setAction (t : ParseTable) (state : Nat) (terminal : Symbol) (a : Action) : ParseTable where
  actionTable s x := if s = state ∧ x = terminal then some a else t.actionTable s x
  gotoTable := t.gotoTable
  conflicts :=
    match t.actionTable state terminal with
    | some e => if e ≠ a then t.conflicts ++ [conflictMessage state terminal e a] else t.conflicts
    | none => t.conflicts

/-- `ParseTable::set_goto`. -/
def setGoto (t : ParseTable) (state : Nat) (nonterminal : Symbol) (target : Nat) : ParseTable :=
  { t with gotoTable := fun s x => if s = state ∧ x = nonterminal then some target
                                   else t.gotoTable s x }

/-- `ParseTable::get_action`: `Error` for an empty cell. -/
def getAction (t : ParseTable) (state : Nat) (terminal : Symbol) : Action :=
  (t.actionTable state terminal).getD .error

/-- `ParseTable::get_goto` (`-1`, here `none`, for an empty cell). -/
def getGoto (t : ParseTable) (state : Nat) (nonterminal : Symbol) : Option Nat :=
  t.gotoTable state nonterminal

/-- `ParseTable::has_conflicts`. -/
def hasConflicts (t : ParseTable) : Bool := !t.conflicts.isEmpty

end ParseTable

/-- The test `lhs()->name().back() == '\'' && rhs().size() == 1` by which `build_lalr_states` and
`generate_table` recognise `S' → S`. (On an empty name `back()` is undefined in the source; the
model reads a character that is not an apostrophe.) -/
def Production.looksAugmented (p : Production) : Bool :=
  p.lhs.name.back == '\x27' && p.rhs.length == 1

/-- `class LALR1Generator`: the grammar and the LR(0) automaton built by its constructor. -/
structure LALR1Generator where
  grammar : Grammar
  lr0Automaton : LR0Automaton

namespace LALR1Generator

/-- The constructor, which builds the LR(0) automaton. -/
def create (g : Grammar) : Option LALR1Generator := (LR0Automaton.build g).map (⟨g, ·⟩)

/-- The lookahead set `build_lalr_states` computes for one LR(0) item. -/
def itemLookaheads (g : Grammar) (it : LR0Item) : List Symbol :=
  match g.productions[it.production]? with
  | none => []
  | some p =>
    if it.isComplete g.productions then
      if p.looksAugmented then [endOfInputSymbol] else g.constFollowSet p.lhs
    else
      match it.nextSymbol g.productions with
      | some x => if x.isTerminal then [x] else if x.isNonterminal then g.constFirstSet x else []
      | none => []

/-- `LALR1Generator::build_lalr_states`: one LALR state per LR(0) state, same id. -/
def buildLalrStates (gen : LALR1Generator) : List LALRState :=
  gen.lr0Automaton.states.enum.map fun (i, core) =>
    ⟨i, core, core.flatMap fun c =>
      (itemLookaheads gen.grammar c).map (LR1Item.mk c.production c.dotPosition)⟩

/-- The order of `std::set<LR1Item>`: production address, dot, lookahead address. -/
def itemBefore (t : SymbolTable) (addr : Nat → Nat) (a b : LR1Item) : Bool :=
  addr a.production < addr b.production ||
    (addr a.production == addr b.production &&
      (a.dotPosition < b.dotPosition ||
        (a.dotPosition == b.dotPosition &&
          t.symbols.indexOf a.lookahead ≤ t.symbols.indexOf b.lookahead)))

/-- The cell and action `generate_table` sets for one LR(1) item of state `sid`, if any. The
production number of a reduction is found by comparing pointers, so it is the item's own index. -/
def itemAction (gen : LALR1Generator) (sid : Nat) (it : LR1Item) : Option (Symbol × Action) :=
  match gen.grammar.productions[it.production]? with
  | none => none
  | some p =>
    if it.core.isComplete gen.grammar.productions then
      if p.looksAugmented then some (it.lookahead, .accept)
      else some (it.lookahead, .reduce it.production)
    else
      match it.core.nextSymbol gen.grammar.productions with
      | some x =>
        if x.isTerminal then (gen.lr0Automaton.getTransition sid x).map (x, .shift ·) else none
      | none => none

/-- The body of the loop over the LR(1) items of state `sid`. -/
def fillItem (gen : LALR1Generator) (sid : Nat) (t : ParseTable) (it : LR1Item) : ParseTable :=
  match itemAction gen sid it with
  | some (a, act) => t.setAction sid a act
  | none => t

/-- The goto entry `generate_table` sets for one transition symbol of state `sid`. -/
def fillGoto (gen : LALR1Generator) (sid : Nat) (t : ParseTable) (x : Symbol) : ParseTable :=
  if x.isNonterminal then
    match gen.lr0Automaton.getTransition sid x with
    | some j => t.setGoto sid x j
    | none => t
  else t

/-- One state's rows: its LR(1) items in set order, then its goto entries. -/
def fillState (gen : LALR1Generator) (addr : Nat → Nat) (t : ParseTable) (st : LALRState) :
    ParseTable :=
  (st.transitionSymbols gen.grammar.symbolTable gen.grammar.productions).foldl
    (fillGoto gen st.id)
    ((st.items.insertionSort (fun a b => itemBefore gen.grammar.symbolTable addr a b = true)).foldl
      (fillItem gen st.id) t)

/-- `LALR1Generator::generate_table`. -/
def generateTable (gen : LALR1Generator) (addr : Nat → Nat) : Except String ParseTable :=
  if !gen.grammar.isAugmented then
    .error "Grammar must be augmented before generating LALR(1) table"
  else .ok (gen.buildLalrStates.foldl (fillState gen addr) ParseTable.empty)

end LALR1Generator

end Lalr1
