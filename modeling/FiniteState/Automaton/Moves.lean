import FiniteState.Automaton.Basic
import FiniteState.Machine
import FiniteState.StateSet

/-!
# Nondeterministic runs

A nondeterministic automaton is run by following all its choices at once: the state of
the run is the set of the states in which the automaton may be. This makes it a
deterministic machine whose states are sets of states. The states are numbered in their
order, and a transition that names a state that does not exist gives no move.
-/

namespace FiniteState

/-- The moves of an automaton between its numbered states. -/
structure Moves where
  names : List String
  starts : StateSet
  accepting : StateSet
  /-- The moves that read nothing. -/
  silent : List (Nat × Nat)
  /-- The moves that read a symbol. -/
  reading : List (Nat × Char × Nat)

namespace Moves

/-- The numbers of the states of a list that have a property. -/
def numbersOf (p : State → Bool) : Nat → List State → List Nat
  | _, [] => []
  | i, s :: ss => if p s then i :: numbersOf p (i + 1) ss else numbersOf p (i + 1) ss

/-- A transition between the numbers of existing states. -/
def numbered? (names : List String) (t : Transition) : Option (Nat × Nat × Label) :=
  match names.idxOf? t.source, names.idxOf? t.target with
  | some i, some j => some (i, j, t.label)
  | _, _ => none

def ofAutomaton (a : Automaton) : Moves :=
  let edges := a.transitions.filterMap (numbered? a.names)
  { names := a.names
    starts := StateSet.ofList (numbersOf State.starting 0 a.states)
    accepting := StateSet.ofList (numbersOf State.accepting 0 a.states)
    silent := (edges.filter fun e => e.2.2.hasEpsilon).map fun e => (e.1, e.2.1)
    reading := edges.flatMap fun e => e.2.2.symbols.map fun c => (e.1, c, e.2.1) }

/-- The symbols that some move reads. -/
def alphabet (m : Moves) : Alphabet := Alphabet.ofList (m.reading.map fun r => r.2.1)

/-- The moves that read nothing and leave `i`. -/
def silentFrom (m : Moves) (i : Nat) : List (Unit × Nat) :=
  m.silent.filterMap fun e => if e.1 = i then some ((), e.2) else none

/-- The states that can be reached from `i` without reading, `i` among them. -/
def closureOf (m : Moves) (i : Nat) : StateSet :=
  StateSet.ofList (BreadthFirst.nodes m.silentFrom m.names.length [i])

def closures (m : Moves) : Array StateSet :=
  ((List.range m.names.length).map m.closureOf).toArray

/-- The closure of one state, looked up. -/
def closureIn (table : Array StateSet) (i : Nat) : StateSet :=
  table[i]?.getD StateSet.empty

/-- The states that can be reached from a set without reading. -/
def closeWith (m : Moves) (table : Array StateSet) (s : StateSet) : StateSet :=
  StateSet.unionAll ((s.below m.names.length).map (closureIn table))

/-- The states that can be reached from a set by reading one symbol. -/
def stepWith (m : Moves) (table : Array StateSet) (s : StateSet) (c : Char) : StateSet :=
  StateSet.unionAll (m.reading.filterMap fun r =>
    if r.2.1 = c ∧ s.contains r.1 = true then some (closureIn table r.2.2) else none)

/-- The names of a set of states, sorted, between braces. -/
def setName (names : List String) : String :=
  "\x7b" ++ String.intercalate "," (names.mergeSort fun a b => decide (a ≤ b)) ++ "\x7d"

def memberNames (m : Moves) (s : StateSet) : List String :=
  (s.below m.names.length).filterMap fun i => m.names[i]?

/-- The machine that follows all choices at once. -/
def machine (m : Moves) : Machine StateSet :=
  let table := m.closures
  { start := m.closeWith table m.starts
    step := m.stepWith table
    accepting := fun s => s.meets m.accepting
    name := fun s => setName (m.memberNames s) }

end Moves

namespace Automaton

/-- The machine that follows all choices of an automaton at once. -/
def machine (a : Automaton) : Machine StateSet := (Moves.ofAutomaton a).machine

/-- Whether some run of the automaton reads the word and ends in an accepting state. -/
def accepts (a : Automaton) (w : List Char) : Bool := a.machine.accepts w

def subsetCount (a : Automaton) : Nat := Nat.pow 2 a.states.length

/-- The subset construction as a table: its states are the sets of states in which some
word may leave the automaton. -/
def subsetTable (a : Automaton) : Table :=
  let m := Moves.ofAutomaton a
  m.machine.table m.alphabet a.subsetCount

/-- The deterministic automaton with the same language, over the symbols that occur on
transitions between existing states. -/
def determinise (a : Automaton) : Automaton := a.subsetTable.toAutomaton

end Automaton

end FiniteState
