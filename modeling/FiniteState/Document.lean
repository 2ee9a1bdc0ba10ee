import FiniteState.Automaton.Reachable
import FiniteState.Automaton.Validation
import FiniteState.Json.Printer
import FiniteState.Json.Reader

/-!
# Documents

Automata are exchanged as JSON documents that list states and transitions. Every field may
be missing from a document that is read. The alphabet is there for information: it is
written, but what is read of it is not used.
-/

namespace FiniteState

/-- A transition of a document, with its label as text. -/
structure Link where
  source : String
  target : String
  label : String
deriving DecidableEq, Inhabited

/-- What a document says. -/
structure Document where
  states : List State
  alphabet : Option (List String)
  links : List Link
deriving Inhabited

namespace Document

open Json

/-! ## Reading -/

def noPosition : Position := ⟨0, 0⟩

def positionFields : List (FieldReader Position) :=
  [⟨"x", fun cs => (number cs).map fun r => (fun p => { p with x := r.1 }, r.2)⟩,
   ⟨"y", fun cs => (number cs).map fun r => (fun p => { p with y := r.1 }, r.2)⟩]

/-- Takes a position, which must be complete. -/
def position : Reader Position := record positionFields true noPosition

def plainState : State := ⟨"", false, false, none⟩

def stateFields : List (FieldReader State) :=
  [⟨"name", fun cs => (string cs).map fun r => (fun s => { s with name := r.1 }, r.2)⟩,
   ⟨"accepting", fun cs =>
      (bool cs).map fun r => (fun s => { s with accepting := r.1 }, r.2)⟩,
   ⟨"starting", fun cs =>
      (bool cs).map fun r => (fun s => { s with starting := r.1 }, r.2)⟩,
   ⟨"position", fun cs =>
      (optional position cs).map fun r => (fun s => { s with position := r.1 }, r.2)⟩]

def linkFields : List (FieldReader Link) :=
  [⟨"from", fun cs => (string cs).map fun r => (fun t => { t with source := r.1 }, r.2)⟩,
   ⟨"to", fun cs => (string cs).map fun r => (fun t => { t with target := r.1 }, r.2)⟩,
   ⟨"label", fun cs => (string cs).map fun r => (fun t => { t with label := r.1 }, r.2)⟩]

def documentFields : List (FieldReader Document) :=
  [⟨"states", fun cs =>
      (list (record stateFields false plainState) cs).map fun r =>
        (fun d => { d with states := r.1 }, r.2)⟩,
   ⟨"alphabet", fun cs =>
      (optional (list string) cs).map fun r => (fun d => { d with alphabet := r.1 }, r.2)⟩,
   ⟨"transitions", fun cs =>
      (list (record linkFields false ⟨"", "", ""⟩) cs).map fun r =>
        (fun d => { d with links := r.1 }, r.2)⟩]

def parse (text : String) : Except Fault Document :=
  readAll (record documentFields false ⟨[], none, []⟩) text

/-- The automaton of a document. A state replaces an earlier one with its name. -/
def toAutomaton (d : Document) : Automaton :=
  .ofLists d.states (d.links.map fun l => ⟨l.source, l.target, Label.parse l.label⟩)

def parseAutomaton (text : String) : Except Fault Automaton :=
  (parse text).map toAutomaton

/-! ## Writing -/

def positionValue (p : Position) : Value := .record [("x", .number p.x), ("y", .number p.y)]

def stateValue (s : State) : Value :=
  .record
    ([("name", .string s.name), ("accepting", .bool s.accepting),
      ("starting", .bool s.starting)] ++
      (s.position.toList.map fun p => ("position", positionValue p)))

def linkValue (l : Link) : Value :=
  .record [("from", .string l.source), ("to", .string l.target), ("label", .string l.label)]

def value (d : Document) : Value :=
  .record
    [("states", .list (d.states.map stateValue)),
     ("alphabet",
       match d.alphabet with
       | some symbols => .list (symbols.map .string)
       | none => .null),
     ("transitions", .list (d.links.map linkValue))]

/-- A document as text, on several lines or on one. -/
def render (lines : Bool) (d : Document) : String := write lines d.value

end Document

namespace Automaton

/-- The document of an automaton, with the given alphabet. -/
def document (a : Automaton) (alphabet : Option Alphabet) : Document :=
  { states := a.states
    alphabet := alphabet.map fun S => S.symbols.map String.singleton
    links := a.transitions.map fun t => ⟨t.source, t.target, t.label.render⟩ }

/-- The document of an automaton that is meant to be complete and deterministic. It names
an alphabet only if the automaton is so. -/
def deterministicDocument (a : Automaton) : Document :=
  a.document (a.validate none).toOption

/-- The document of an automaton that need not be deterministic, with the symbols that
leave reachable states. -/
def nondeterministicDocument (a : Automaton) : Document := a.document (some a.alphabet)

end Automaton

end FiniteState
