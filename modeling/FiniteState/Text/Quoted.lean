import FiniteState.Text.Combining
import FiniteState.Text.Unprintable

/-!
# Quoted words

A word is shown in double quotes, in such a way that every character in it can be told:
characters that would not be seen, or would change those beside them, are written by their
code.
-/

namespace FiniteState.Text

/-- The letter behind a backslash that stands for a character in quotes. -/
def quoteLetter? (c : Char) : Option Char :=
  if c = '"' then some '"'
  else if c = '\\' then some '\\'
  else if c = '\t' then some 't'
  else if c = '\n' then some 'n'
  else if c = '\r' then some 'r'
  else if c = '\x00' then some '0'
  else none

/-- The code of a character in hexadecimal digits between braces. -/
def codeOf (c : Char) : List Char :=
  '\\' :: 'u' :: '\x7b' :: (Nat.toDigits 16 c.toNat ++ ['\x7d'])

/-- Whether a character is written by its code. -/
def isCoded (c : Char) : Bool := isCombining c || isUnprintable c

/-- A character as it stands in quotes. -/
def quoteChar (c : Char) : List Char :=
  match quoteLetter? c with
  | some letter => ['\\', letter]
  | none => if isCoded c then codeOf c else [c]

/-- A word in quotes. -/
def quoted (w : List Char) : String :=
  String.ofList ('"' :: (w.flatMap quoteChar ++ ['"']))

end FiniteState.Text
