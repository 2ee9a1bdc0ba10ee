import FiniteState.BreadthFirst
import FiniteState.Table.Basic
import FiniteState.Text.Primed

/-!
# Machines

A machine is a deterministic automaton whose states are values of any kind, such as
subsets or pairs of states of other automata. Searching it from its start gives a table
of the states that some word leads to. Both the subset construction and the product are
machines, and what holds of their tables is shown once, here.
-/

namespace FiniteState

universe u

/-- A deterministic automaton with states in `α`. -/
structure Machine (α : Type u) where
  start : α
  step : α → Char → α
  accepting : α → Bool
  name : α → String

namespace Machine

variable {α : Type u}

/-- The state to which a word leads from a state. -/
def runFrom (m : Machine α) (q : α) (w : List Char) : α := w.foldl m.step q

def run (m : Machine α) (w : List Char) : α := m.runFrom m.start w

/-- Whether a word leads to an accepting state. -/
def accepts (m : Machine α) (w : List Char) : Bool := m.accepting (m.run w)

@[simp] theorem runFrom_nil (m : Machine α) (q : α) : m.runFrom q [] = q := rfl

theorem runFrom_cons (m : Machine α) (q : α) (c : Char) (w : List Char) :
    m.runFrom q (c :: w) = m.runFrom (m.step q c) w := rfl

theorem runFrom_append (m : Machine α) (q : α) (v w : List Char) :
    m.runFrom q (v ++ w) = m.runFrom (m.runFrom q v) w := by
  simp [runFrom]

variable [DecidableEq α]

/-- A search over the symbols of `S`. `bound` is at least the number of states that words
over `S` lead to. -/
def visits (m : Machine α) (S : Alphabet) (bound : Nat) : List (Visit α Char) :=
  BreadthFirst.search (fun q => S.symbols.map fun c => (c, m.step q c)) bound [m.start]

def found (m : Machine α) (S : Alphabet) (bound : Nat) : List α :=
  (m.visits S bound).map Visit.node

/-- The rows of the given states, under the given names. -/
def rowsOf (m : Machine α) (S : Alphabet) (nodes : List α) (names : List String) :
    List Row :=
  List.zipWith
    (fun q name => ⟨name, m.accepting q, S.symbols.map fun c => nodes.idxOf (m.step q c)⟩)
    nodes names

/-- The names of the states met by a search. A name that an earlier state has taken is
primed. -/
def namesOf (m : Machine α) (nodes : List α) : List String :=
  Text.distinct [] (nodes.map m.name)

/-- The table of the states met by a search, in the order in which they are met. -/
def table (m : Machine α) (S : Alphabet) (bound : Nat) : Table :=
  let nodes := m.found S bound
  ⟨S, 0, m.rowsOf S nodes (m.namesOf nodes)⟩

end Machine

end FiniteState
