import FiniteState.Command.Line
import FiniteState.FileTree
import FiniteState.Progress

/-!
# The program

What the program does with a command line: it reads the documents that the command names,
prints what the command comes to, and fails with a report if it comes to nothing. How a
document is found, and where progress is shown, is left to a surrounding effect.
-/

namespace FiniteState.Program

/-- What the program leaves behind. -/
structure Outcome where
  code : UInt32
  stdout : String
  stderr : String
deriving Inhabited

/-- The outcome of a command line that could not be read. -/
def misused (m : Misuse) : Outcome :=
  ⟨1, "", (Failure.usage m).report ++ "\n" ++ Command.usage⟩

def helped : Outcome := ⟨0, Command.usage, ""⟩

def failed (f : Failure) : Outcome := ⟨1, "", f.report ++ "\n"⟩

def printed (text : String) : Outcome := ⟨0, text ++ "\n", ""⟩

/-- The automaton of a document, of which `read` gives the text or the reason why there is
none. -/
def document {m : Type → Type} [Monad m] (read : String → m (Except String String))
    (path : String) : ExceptT Failure m Automaton := do
  match ← ExceptT.lift (read path) with
  | .error reason => throw (.unreadable path reason)
  | .ok text =>
      match Document.parseAutomaton text with
      | .error fault => throw (.document fault)
      | .ok a => return a

/-- The command of a name and operands, with the documents that it works on. -/
def command {m : Type → Type} [Monad m] (load : String → ExceptT Failure m Automaton)
    (name : String) (operands : List String) :
    ExceptT Failure m (Command Automaton) :=
  match Command.parse name operands with
  | .error misuse => throw (.usage misuse)
  | .ok c => c.load load

/-- Carries out a command line. `tell` is given what the command tells about itself, if the
command line asks for it. -/
def run {m : Type → Type} [Monad m] (read : String → m (Except String String))
    (tell : List Event → m Unit) (arguments : List String) : m Outcome := do
  match Command.readLine arguments with
  | .error misuse => return misused misuse
  | .ok none => return helped
  | .ok (some invocation) =>
      match ← (command (document read) invocation.command invocation.operands).run with
      | .error failure => return failed failure
      | .ok c =>
          if invocation.verbose then
            tell ((Progress.execute invocation.options c).filter fun e => !e.isDetail)
          match c.execute invocation.options with
          | .error failure => return failed failure
          | .ok text => return printed text

/-- Carries out a command line on files in memory. What the command tells about itself is
not kept. -/
def runOn (t : FileTree) (arguments : List String) : Outcome :=
  Id.run (run (fun path => pure ((t.read path).mapError PathFault.message))
    (fun _ => pure ()) arguments)

end FiniteState.Program
