import FiniteState.Decimal.Printer

/-!
# Writing JSON

Values are written either on one line without any space, or with every item and field on
a line of its own, indented by two spaces for each enclosure. Strings hold all characters
as they are, except quotes, backslashes and control characters.
-/

namespace FiniteState.Json

/-- A value to be written. -/
inductive Value where
  | null
  | bool (b : Bool)
  | number (x : Float)
  | string (s : String)
  | list (items : List Value)
  | record (fields : List (String × Value))

/-- The hexadecimal digit of a number below sixteen. -/
def hexDigit (n : Nat) : Char :=
  if n < 10 then Char.ofNat ('0'.toNat + n) else Char.ofNat ('a'.toNat + (n - 10))

/-- The letter behind a backslash that stands for a character. -/
def escapeLetter? (c : Char) : Option Char :=
  if c = '"' then some '"'
  else if c = '\\' then some '\\'
  else if c = '\x08' then some 'b'
  else if c = '\x0c' then some 'f'
  else if c = '\n' then some 'n'
  else if c = '\r' then some 'r'
  else if c = '\t' then some 't'
  else none

/-- A character as it stands in a string. -/
def escapeChar (c : Char) : List Char :=
  match escapeLetter? c with
  | some letter => ['\\', letter]
  | none =>
      if c.toNat < 0x20 then
        ['\\', 'u', '0', '0', hexDigit (c.toNat / 16), hexDigit (c.toNat % 16)]
      else [c]

def quoted (s : String) : List Char :=
  '"' :: (s.toList.flatMap escapeChar ++ ['"'])

/-- Texts with commas between them. -/
def joinWith (separator : List Char) : List (List Char) → List Char
  | [] => []
  | [text] => text
  | text :: texts => text ++ (separator ++ joinWith separator texts)

/-- A value that has no parts. -/
def renderLeaf : Value → List Char
  | .bool true => "true".toList
  | .bool false => "false".toList
  | .number x => (Decimal.render? x).getD "null".toList
  | .string s => quoted s
  | _ => "null".toList

/-- The beginning of a new line, inside `depth` enclosures. -/
def newLine (depth : Nat) : List Char := '\n' :: List.replicate (2 * depth) ' '

/-- Parts between their delimiters, all on one line. -/
def enclosed (opening closing : Char) (parts : List (List Char)) : List Char :=
  opening :: (joinWith [','] parts ++ [closing])

/-- Parts between their delimiters, each on a line of its own, inside `depth` other
enclosures. -/
def enclosedLines (opening closing : Char) (depth : Nat) (parts : List (List Char)) :
    List Char :=
  if parts.isEmpty then [opening, closing]
  else
    opening :: (newLine (depth + 1) ++
      (joinWith (',' :: newLine (depth + 1)) parts ++ (newLine depth ++ [closing])))

mutual

def compact : Value → List Char
  | .list items => enclosed '[' ']' (compactItems items)
  | .record fields => enclosed '\x7b' '\x7d' (compactFields fields)
  | leaf => renderLeaf leaf

def compactItems : List Value → List (List Char)
  | [] => []
  | item :: items => compact item :: compactItems items

def compactFields : List (String × Value) → List (List Char)
  | [] => []
  | (key, value) :: fields =>
      (quoted key ++ ':' :: compact value) :: compactFields fields

end

mutual

/-- A value with its parts on lines of their own, inside `depth` enclosures. -/
def pretty (depth : Nat) : Value → List Char
  | .list items => enclosedLines '[' ']' depth (prettyItems depth items)
  | .record fields => enclosedLines '\x7b' '\x7d' depth (prettyFields depth fields)
  | leaf => renderLeaf leaf

/-- The items of a list inside `depth` enclosures. -/
def prettyItems (depth : Nat) : List Value → List (List Char)
  | [] => []
  | item :: items => pretty (depth + 1) item :: prettyItems depth items

/-- The fields of a record inside `depth` enclosures. -/
def prettyFields (depth : Nat) : List (String × Value) → List (List Char)
  | [] => []
  | (key, value) :: fields =>
      (quoted key ++ ':' :: ' ' :: pretty (depth + 1) value) :: prettyFields depth fields

end

/-- A value as text, with parts on lines of their own or on one line. -/
def write (lines : Bool) (value : Value) : String :=
  String.ofList (if lines then pretty 0 value else compact value)

end FiniteState.Json
