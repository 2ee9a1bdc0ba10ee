import FiniteState.Failure
import FiniteState.Table.Product

/-!
# Commands

What the program can be asked to do. A command is first read with the names of the
documents it works on, and then these are replaced by the automata that they hold, from
left to right.
-/

namespace FiniteState

/-- A request that works on documents, each of which is given as a value in `α`. -/
inductive Command (α : Type) where
  | regex (source : String)
  | nfa (source : String)
  | determinise (file : α)
  | validate (file : α)
  | run (file : α) (words : List String)
  | minimise (file : α)
  | invert (file : α)
  | combine (op : BoolOp) (left right : α)
  | equivalent (left right : α)
  | isomorphic (left right : α)
  | witness (file : α)
  | trace (file : α) (word : String) (moves : List String)

namespace Command

/-- Reads a command from its name and its operands. -/
def parse (name : String) (operands : List String) : Except Misuse (Command String) :=
  let wrong (expected : String) : Except Misuse (Command String) :=
    .error (.wrongOperands name expected)
  let oneFile (command : String → Command String) : Except Misuse (Command String) :=
    match operands with
    | [file] => .ok (command file)
    | _ => wrong "FILE"
  let twoFiles (command : String → String → Command String) :
      Except Misuse (Command String) :=
    match operands with
    | [left, right] => .ok (command left right)
    | _ => wrong "FILE FILE"
  let expression (command : String → Command String) : Except Misuse (Command String) :=
    match operands with
    | [source] => .ok (command source)
    | _ => wrong "REGEX"
  match name with
  | "regex" => expression .regex
  | "nfa" => expression .nfa
  | "determinise" => oneFile .determinise
  | "validate" => oneFile .validate
  | "minimise" => oneFile .minimise
  | "invert" => oneFile .invert
  | "witness" => oneFile .witness
  | "run" =>
      match operands with
      | file :: words => .ok (.run file words)
      | [] => wrong "FILE WORD..."
  | "and" => twoFiles (.combine .and)
  | "or" => twoFiles (.combine .or)
  | "xor" => twoFiles (.combine .xor)
  | "equivalent" => twoFiles .equivalent
  | "isomorphic" => twoFiles .isomorphic
  | "trace" =>
      match operands with
      | file :: word :: moves => .ok (.trace file word moves)
      | _ => wrong "FILE WORD STATE..."
  | _ => .error (.unknownCommand name)

/-- Replaces the documents of a command, the left one first. -/
def load {α β : Type} {m : Type → Type} [Monad m] (f : α → m β) :
    Command α → m (Command β)
  | .regex source => pure (.regex source)
  | .nfa source => pure (.nfa source)
  | .determinise file => return .determinise (← f file)
  | .validate file => return .validate (← f file)
  | .run file words => return .run (← f file) words
  | .minimise file => return .minimise (← f file)
  | .invert file => return .invert (← f file)
  | .combine op left right => do
      let l ← f left
      let r ← f right
      return .combine op l r
  | .equivalent left right => do
      let l ← f left
      let r ← f right
      return .equivalent l r
  | .isomorphic left right => do
      let l ← f left
      let r ← f right
      return .isomorphic l r
  | .witness file => return .witness (← f file)
  | .trace file word moves => return .trace (← f file) word moves

end Command

end FiniteState
