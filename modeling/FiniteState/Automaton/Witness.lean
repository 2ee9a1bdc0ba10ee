import FiniteState.Automaton.Basic
import FiniteState.BreadthFirst

/-!
# Accepted words

A search for a word that an automaton accepts. Of each transition only the least symbol
is followed, and the transitions of a state are followed in the order of these symbols,
those that read nothing first, so the word found does not depend on the order in which
transitions and tokens were written.
-/

namespace FiniteState.Automaton

def leastSymbol? (l : Label) : Option Char := (Alphabet.ofList l.symbols).symbols.head?

/-- What a walk over a transition may read: nothing if its label holds `ε`, and the least
symbol of the label. -/
def readings (l : Label) : List (Option Char) :=
  (if l.hasEpsilon then [none] else []) ++ (leastSymbol? l).toList.map some

/-- Whether one reading comes before another: nothing comes before every symbol. -/
def readingLe : Option Char → Option Char → Bool
  | none, _ => true
  | some _, none => false
  | some c, some d => decide (c ≤ d)

/-- The ways on from a state, in the order in which they are followed. -/
def ways (a : Automaton) (name : String) : List (Option Char × String) :=
  ((a.outgoing name).flatMap fun t =>
    if a.hasState t.target then (readings t.label).map fun r => (r, t.target)
    else []).mergeSort fun x y => readingLe x.1 y.1

def isAccepting (a : Automaton) (name : String) : Bool :=
  match a.state? name with
  | some s => s.accepting
  | none => false

/-- The word read on the way to the first accepting state that the search meets. -/
def witness? (a : Automaton) : Option (List Char) :=
  ((BreadthFirst.search a.ways a.states.length (stateNames a.starts)).find?
    fun v => a.isAccepting v.node).map fun v => v.labels.filterMap id

def isEmpty (a : Automaton) : Bool := a.witness?.isNone

theorem isEmpty_iff (a : Automaton) : a.isEmpty = true ↔ a.witness? = none := by
  simp [isEmpty]

end FiniteState.Automaton
