import FiniteState.Automaton.Validation
import FiniteState.Json.Reader
import FiniteState.Splice

/-!
# Failures of commands

What can go wrong with a command, the wording of it, and the report that is shown for it.
A report of a faulty expression shows the expression with a mark under the fault.
-/

namespace FiniteState

/-- A command line that asks for nothing that can be done. -/
inductive Misuse where
  | unrecognizedOption (name : String)
  | missingArgument (option : String)
  | unexpectedArgument (option : String)
  | repeatedOption (option : String)
  | missingCommand
  | unknownCommand (name : String)
  /-- A command was given other operands than it takes. -/
  | wrongOperands (command expected : String)
deriving DecidableEq, Inhabited

def Misuse.message : Misuse → String
  | .unrecognizedOption name => "Unrecognized option: '" ++ name ++ "'"
  | .missingArgument option => "Argument to option '" ++ option ++ "' missing"
  | .unexpectedArgument option => "Option '" ++ option ++ "' does not take an argument"
  | .repeatedOption option => "Option '" ++ option ++ "' given more than once"
  | .missingCommand => "missing command"
  | .unknownCommand name => "unknown command `" ++ name ++ "`"
  | .wrongOperands command expected => "usage: " ++ command ++ " " ++ expected

/-- Why a command gave no result. -/
inductive Failure where
  | regex (source : String) (error : Regex.ParseError)
  | unknownSymbol (symbol : Char)
  | label (error : LabelError)
  | invalid (defect : Defect)
  | document (fault : Json.Fault)
  | unreadable (path reason : String)
  | usage (misuse : Misuse)
deriving DecidableEq, Inhabited

def Failure.message : Failure → String
  | .regex _ error => error.message
  | .unknownSymbol symbol => String.singleton symbol ++ " is not in the alphabet"
  | .label error => error.message
  | .invalid defect => "invalid DFA: " ++ defect.message
  | .document fault => "malformed document: " ++ fault.message
  | .unreadable path reason => "cannot read " ++ path ++ ": " ++ reason
  | .usage misuse => misuse.message

namespace Report

/-- The number of characters before a byte of a text, if a character begins at the byte or
the text ends there. -/
def charsBefore? : List Char → Nat → Option Nat
  | _, 0 => some 0
  | [], _ + 1 => none
  | c :: cs, n + 1 =>
      if c.utf8Size ≤ n + 1 then (charsBefore? cs (n + 1 - c.utf8Size)).map (· + 1)
      else none

/-- How far the mark is from the beginning of the text. -/
def column (text : List Char) (span : Regex.Span) : Nat :=
  (charsBefore? text span.start).getD 0

/-- How wide the mark is: as wide as the span, if that is a part of the text, and at least
one character. -/
def width (text : List Char) (span : Regex.Span) : Nat :=
  if span.start ≤ span.stop then
    match charsBefore? text span.start, charsBefore? text span.stop with
    | some i, some j => max 1 (j - i)
    | _, _ => 1
  else 1

/-- A text with a mark under a part of it. -/
def underline (source : String) (span : Regex.Span) : String :=
  "  " ++ source ++ "\n  " ++
    String.ofList (List.replicate (column source.toList span) ' ' ++
      List.replicate (width source.toList span) '^')

end Report

/-- What is shown for a failure. -/
def Failure.report : Failure → String
  | .regex source error =>
      "error: " ++ error.fault.message ++ "\n" ++ Report.underline source error.span
  | .label error =>
      "error: " ++ error.message ++ ": " ++ error.cause.fault.message ++ "\n" ++
        Report.underline error.label error.cause.span
  | failure => "error: " ++ failure.message

end FiniteState
