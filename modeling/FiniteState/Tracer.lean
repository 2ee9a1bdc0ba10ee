import FiniteState.Automaton.Validation

/-!
# Tracing a run

A tracer reads a word one symbol at a time. Whoever drives it says to which state each
symbol leads; a move that the table does not confirm is refused and changes nothing.
-/

namespace FiniteState

/-- Why a move is refused. -/
inductive Refusal where
  | inputExhausted
  | unknownSymbol (symbol : Char)
  | unknownState (name : String)
  | wrongState (source : String) (symbol : Char) (expected found : String)
deriving DecidableEq, Inhabited

def Refusal.message : Refusal → String
  | .inputExhausted => "the whole input has been read"
  | .unknownSymbol symbol => String.singleton symbol ++ " is not in the alphabet"
  | .unknownState name => "there is no state named " ++ name
  | .wrongState source symbol expected found =>
      source ++ " goes to " ++ expected ++ " on " ++ String.singleton symbol ++ ", not " ++
        found

/-- A run in progress. -/
structure Tracer where
  table : Table
  consumed : List Char
  remaining : List Char
  current : Nat
deriving Inhabited

namespace Tracer

/-- A tracer before its first move. -/
def start (a : Automaton) (w : List Char) : Except Defect Tracer :=
  match a.table? with
  | .error d => .error d
  | .ok t => .ok ⟨t, [], w, t.start⟩

def state (t : Tracer) : String := t.table.name t.current

def nextSymbol? (t : Tracer) : Option Char := t.remaining.head?

/-- Reads the next symbol, provided that it leads to the state called `name`. -/
def move (t : Tracer) (name : String) : Except Refusal Tracer :=
  match t.remaining with
  | [] => .error .inputExhausted
  | c :: rest =>
      match t.table.step? t.current c with
      | none => .error (.unknownSymbol c)
      | some next =>
          if !t.table.names.contains name then .error (.unknownState name)
          else if t.table.name next = name then
            .ok { t with consumed := t.consumed ++ [c], remaining := rest, current := next }
          else .error (.wrongState t.state c (t.table.name next) name)

/-- The tracer after a move, which is the same tracer if the move is refused. -/
def tryMove (t : Tracer) (name : String) : Tracer :=
  match t.move name with
  | .ok moved => moved
  | .error _ => t

/-- The verdict on the word, once it has been read to its end. -/
def verdict? (t : Tracer) : Option Verdict :=
  match t.remaining with
  | [] => some (if t.table.accepting t.current then .accept else .reject)
  | _ :: _ => none

end Tracer

end FiniteState
