import FiniteState.Program

/-!
# Running the program

Documents are files, and progress is shown on the standard error.
-/

namespace FiniteState.Program

/-- The number of an error of the system. Some are given with the opposite sign, and wrap
around. -/
def errorNumber (code : UInt32) : Nat :=
  if code < 0x80000000 then code.toNat else (0 - code).toNat

/-- Why a file could not be read. -/
def readingFault (e : IO.Error) : String :=
  let known (code : UInt32) : String :=
    ((PathFault.ofNumber? (errorNumber code)).map PathFault.message).getD (toString e)
  match e with
  | .noFileOrDirectory _ code _ => known code
  | .inappropriateType _ code _ => known code
  | .invalidArgument _ code _ => known code
  | .userError _ => "stream did not contain valid UTF-8"
  | _ => toString e

/-- The text of a file, or why there is none. -/
def readFile (path : String) : IO (Except String String) := do
  try
    return .ok (← IO.FS.readFile path)
  catch e =>
    return .error (readingFault e)

def tell (events : List Event) : IO Unit :=
  events.forM fun e => IO.eprintln e.line

end FiniteState.Program

def main (arguments : List String) : IO UInt32 := do
  let outcome ← FiniteState.Program.run FiniteState.Program.readFile
    FiniteState.Program.tell arguments
  IO.print outcome.stdout
  IO.eprint outcome.stderr
  return outcome.code
