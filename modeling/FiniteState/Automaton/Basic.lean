import FiniteState.Label

/-!
# Automata

An automaton is a graph of named states with labelled transitions. Nothing asks it to be
deterministic or complete, and a transition may name states that do not exist: such a
transition is never taken. The states keep the order in which they were added, and no two
of them share a name.
-/

namespace FiniteState

/-- Where a state is drawn. It has no meaning for the language. -/
structure Position where
  x : Float
  y : Float
deriving BEq, Inhabited

structure State where
  name : String
  starting : Bool
  accepting : Bool
  position : Option Position
deriving BEq, Inhabited

/-- A labelled edge between two states, which it names. -/
structure Transition where
  source : String
  target : String
  label : Label
deriving DecidableEq, Inhabited

def stateNames (states : List State) : List String := states.map State.name

/-- Puts `s` in the place of the state with its name, or else at the end. -/
def insertState (s : State) : List State → List State
  | [] => [s]
  | t :: ts => if t.name = s.name then s :: ts else t :: insertState s ts

@[simp] theorem stateNames_nil : stateNames [] = [] := rfl

@[simp] theorem stateNames_cons (s : State) (ts : List State) :
    stateNames (s :: ts) = s.name :: stateNames ts := rfl

theorem stateNames_insertState (s : State) (ts : List State) :
    stateNames (insertState s ts) =
      if s.name ∈ stateNames ts then stateNames ts else stateNames ts ++ [s.name] := by
  induction ts with
  | nil => simp [insertState]
  | cons t ts ih =>
      rw [insertState]
      split
      · next h => simp [h]
      · next h =>
          have hne : ¬ s.name = t.name := fun he => h he.symm
          simp only [stateNames_cons, List.mem_cons, hne, false_or, ih]
          split <;> rfl

theorem nodup_insertState (s : State) (ts : List State) (h : (stateNames ts).Nodup) :
    (stateNames (insertState s ts)).Nodup := by
  rw [stateNames_insertState]
  split
  · exact h
  · next hs => exact List.nodup_append.2 ⟨h, by simp, by
      intro a ha b hb hab
      rw [List.mem_singleton] at hb
      exact hs (hb ▸ hab ▸ ha)⟩

structure Automaton where
  states : List State
  transitions : List Transition
  nodup : (stateNames states).Nodup

namespace Automaton

def empty : Automaton := ⟨[], [], List.nodup_nil⟩

instance : Inhabited Automaton := ⟨empty⟩

def names (a : Automaton) : List String := stateNames a.states

/-- Adds a state, or replaces the one with its name. -/
def insert (a : Automaton) (s : State) : Automaton :=
  ⟨insertState s a.states, a.transitions, nodup_insertState s a.states a.nodup⟩

/-- Adds a state without a position, or replaces the one with its name. -/
def addState (a : Automaton) (name : String) (starting accepting : Bool) : Automaton :=
  a.insert ⟨name, starting, accepting, none⟩

def addTransition (a : Automaton) (t : Transition) : Automaton :=
  { a with transitions := a.transitions ++ [t] }

/-- The automaton of a list of states, of which a later one replaces an earlier one with
its name, and a list of transitions. -/
def ofLists (states : List State) (transitions : List Transition) : Automaton :=
  { states.foldl insert empty with transitions := transitions }

def state? (a : Automaton) (name : String) : Option State :=
  a.states.find? fun s => s.name == name

def hasState (a : Automaton) (name : String) : Bool := a.names.contains name

/-- The states where a run may begin. -/
def starts (a : Automaton) : List State := a.states.filter State.starting

/-- The states where a run may end. -/
def acceptings (a : Automaton) : List State := a.states.filter State.accepting

/-- The transitions that leave a state, in their order. -/
def outgoing (a : Automaton) (name : String) : List Transition :=
  a.transitions.filter fun t => t.source == name

/-- Changes every state, but no name. -/
def mapStates (a : Automaton) (f : State → State)
    (hf : ∀ s, (f s).name = s.name) : Automaton :=
  ⟨a.states.map f, a.transitions, by
    have : stateNames (a.states.map f) = stateNames a.states := by
      simp [stateNames, List.map_map, Function.comp_def, hf]
    rw [this]; exact a.nodup⟩

/-- The automaton that accepts in the states in which `a` does not. -/
def invert (a : Automaton) : Automaton :=
  a.mapStates (fun s => { s with accepting := !s.accepting }) fun _ => rfl

/-- Whether two automata have the same transitions in the same order and the same states
in any order. Positions are compared as numbers. -/
def same (a b : Automaton) : Bool :=
  a.states.length == b.states.length &&
    a.states.all (fun s => b.state? s.name == some s) &&
    decide (a.transitions = b.transitions)

@[simp] theorem names_empty : empty.names = [] := rfl

@[simp] theorem names_invert (a : Automaton) : a.invert.names = a.names := by
  simp [names, invert, mapStates, stateNames, List.map_map, Function.comp_def]

theorem names_nodup (a : Automaton) : a.names.Nodup := a.nodup

end Automaton

end FiniteState
