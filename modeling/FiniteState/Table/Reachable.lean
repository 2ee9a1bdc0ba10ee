import FiniteState.BreadthFirst
import FiniteState.Table.Basic

/-!
# Reachable rows

The states of a table that words lead to from its start.
-/

namespace FiniteState.Table

/-- The states one symbol away. -/
def edges (t : Table) (state : Nat) : List (Char × Nat) :=
  t.alphabet.symbols.zip (t.next state)

/-- The numbers of the states that can be reached from the start, nearest first. -/
def reachable (t : Table) : List Nat :=
  BreadthFirst.nodes t.edges t.size [t.start]

end FiniteState.Table
