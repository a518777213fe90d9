import Lalr1.Items

/-!
# The LR(0) automaton

`LR0Automaton::LR0Automaton` (`lr_items.cpp`): the canonical collection, built from
`closure({(0, 0)})` with a LIFO work list. A state is its item set; its id is its index in
`states_`. `transitions_` is a map from `(state, symbol)`; `get_transition` returns `-1` for a
missing key, which is `none` here.

The loop runs once per discovered state, and the states are pairwise distinct sets of items
`(p, d)` with `d ≤ |rhs p|`, so `buildFuel` passes (two to the number of such items, plus one)
are enough for it. The construction returns `none` when `productions()` is empty (the source
reads `productions()[0]`) or if the work list is not empty after `buildFuel` passes.
-/

namespace Lalr1

/-- The result of the constructor: `states_` and `transitions_`. -/
structure LR0Automaton where
  states : List (List LR0Item)
  transitions : Nat → Symbol → Option Nat

/-- The constructor's local state: the automaton so far and the work list (its back first). -/
structure BuildState where
  states : List (List LR0Item)
  transitions : Nat → Symbol → Option Nat
  workQueue : List Nat

/-- `transitions_[{s, x}] = j`. -/
def setTransition (tr : Nat → Symbol → Option Nat) (s : Nat) (x : Symbol) (j : Nat) :
    Nat → Symbol → Option Nat :=
  fun s' x' => if s' = s ∧ x' = x then some j else tr s' x'

namespace LR0Automaton

/-- The body of the loop over the transition symbols of the current state `cur`: compute
`Goto(cur, x)`, find a state with the same items or add one (and push it), record the
transition. -/
def addTransition (prods : List Production) (cur : Nat) (items : List LR0Item)
    (st : BuildState) (x : Symbol) : BuildState :=
  let j := closure prods (gotoKernel prods items x)
  match st.states.findIdx? (sameItems · j) with
  | some k => { st with transitions := setTransition st.transitions cur x k }
  | none =>
    { states := st.states ++ [j]
      transitions := setTransition st.transitions cur x st.states.length
      workQueue := st.states.length :: st.workQueue }

/-- `while (!work_queue.empty())`: pop the back, process its transition symbols. -/
def buildLoop (t : SymbolTable) (prods : List Production) : Nat → BuildState → Option BuildState
  | 0, _ => none
  | n + 1, st =>
    match st.workQueue with
    | [] => some st
    | cur :: rest =>
      let items := st.states.getD cur []
      buildLoop t prods n
        ((transitionSymbols t prods items).foldl (addTransition prods cur items)
          { st with workQueue := rest })

/-- Two to the number of items `(p, d)` with `d ≤ |rhs p|`, plus one. -/
def buildFuel (prods : List Production) : Nat := 2 ^ (itemUniverse prods).length + 1

/-- `LR0Automaton::LR0Automaton(grammar)`. -/
def build (g : Grammar) : Option LR0Automaton :=
  match g.productions with
  | [] => none
  | _ :: _ =>
    (buildLoop g.symbolTable g.productions (buildFuel g.productions)
        ⟨[closure g.productions [⟨0, 0⟩]], fun _ _ => none, [0]⟩).map
      fun st => ⟨st.states, st.transitions⟩

/-- `LR0Automaton::get_transition`. -/
def getTransition (a : LR0Automaton) (s : Nat) (x : Symbol) : Option Nat := a.transitions s x

end LR0Automaton

end Lalr1
