import FiniteState.Automaton.Basic
import FiniteState.BreadthFirst

/-!
# Reachable states

The states that some walk over the transitions leads to from a start state, and the
symbols that occur on the transitions that leave them.
-/

namespace FiniteState.Automaton

/-- The existing states to which the transitions of a state lead. -/
def successors (a : Automaton) (name : String) : List (Unit × String) :=
  (a.outgoing name).filterMap fun t =>
    if a.hasState t.target then some ((), t.target) else none

/-- The names of the states that can be reached from the start states, nearest first. -/
def reachable (a : Automaton) : List String :=
  BreadthFirst.nodes a.successors a.states.length (stateNames a.starts)

/-- The symbols on the transitions that leave reachable states. -/
def alphabet (a : Automaton) : Alphabet :=
  let reached := a.reachable
  Alphabet.ofList
    ((a.transitions.filter fun t => reached.contains t.source).flatMap
      fun t => t.label.symbols)

end FiniteState.Automaton
