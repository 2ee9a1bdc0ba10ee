import FiniteState.Automaton.Basic
import FiniteState.Grouping

/-!
# Tables

A table is a deterministic automaton in its densest form. The states are numbered from
zero, and the row of a state says where each symbol of the alphabet leads, in the order
of the symbols. All constructions on deterministic automata work on tables.
-/

namespace FiniteState

/-- What a machine says of a word. -/
inductive Verdict where
  | accept
  | reject
  /-- The word could not be read to its end. -/
  | crash
deriving DecidableEq, Inhabited

def Verdict.text : Verdict → String
  | .accept => "Accept"
  | .reject => "Reject"
  | .crash => "Crash"

structure Row where
  name : String
  accepting : Bool
  /-- The numbers of the states to which the symbols lead, in the order of the symbols. -/
  next : List Nat
deriving DecidableEq, Inhabited

/-- A deterministic automaton over an alphabet. -/
structure Table where
  alphabet : Alphabet
  start : Nat
  rows : List Row
deriving DecidableEq, Inhabited

namespace Table

def size (t : Table) : Nat := t.rows.length

def names (t : Table) : List String := t.rows.map Row.name

def name (t : Table) (state : Nat) : String :=
  match t.rows[state]? with
  | some row => row.name
  | none => ""

def accepting (t : Table) (state : Nat) : Bool :=
  match t.rows[state]? with
  | some row => row.accepting
  | none => false

/-- The states to which the symbols lead from a state, in the order of the symbols. -/
def next (t : Table) (state : Nat) : List Nat :=
  match t.rows[state]? with
  | some row => row.next
  | none => []

/-- The state to which a symbol of the alphabet leads. -/
def step? (t : Table) (state : Nat) (c : Char) : Option Nat :=
  (t.alphabet.symbols.zip (t.next state)).lookup c

def run? (t : Table) : Nat → List Char → Option Nat
  | state, [] => some state
  | state, c :: w =>
      match t.step? state c with
      | some state => run? t state w
      | none => none

/-- What the table says of a word. -/
def verdict (t : Table) (w : List Char) : Verdict :=
  match t.run? t.start w with
  | none => .crash
  | some state => if t.accepting state then .accept else .reject

/-- The transitions that leave a row: one for each state it leads to, with all symbols
that lead there. -/
def rowTransitions (t : Table) (row : Row) : List Transition :=
  (groupPairs (row.next.zip t.alphabet.symbols)).map fun g =>
    ⟨row.name, t.name g.1, Label.ofSymbols g.2⟩

/-- The states of a table as states of an automaton, the first with the number `i`. -/
def namedStates (start : Nat) : Nat → List Row → List State
  | _, [] => []
  | i, row :: rows =>
      ⟨row.name, i == start, row.accepting, none⟩ :: namedStates start (i + 1) rows

def toAutomaton (t : Table) : Automaton :=
  Automaton.ofLists (namedStates t.start 0 t.rows) (t.rows.flatMap t.rowTransitions)

@[simp] theorem run?_nil (t : Table) (state : Nat) : t.run? state [] = some state := rfl

theorem run?_cons (t : Table) (state : Nat) (c : Char) (w : List Char) :
    t.run? state (c :: w) = (t.step? state c).bind fun s => t.run? s w := by
  rw [run?]
  cases t.step? state c <;> rfl

theorem run?_append (t : Table) (state : Nat) (v w : List Char) :
    t.run? state (v ++ w) = (t.run? state v).bind fun s => t.run? s w := by
  induction v generalizing state with
  | nil => rfl
  | cons c v ih =>
      rw [List.cons_append, run?_cons, run?_cons]
      cases t.step? state c with
      | none => rfl
      | some s => exact ih s

end Table

end FiniteState
