import FiniteState.Decimal.Numeral

/-!
# Reading JSON

Values are read straight from the text, from left to right, into what is expected of
them, so the first thing that is wrong is the one that is reported: a text that is no
JSON, a value of another kind than expected, or a text that ends too early. A reader takes
the rest of the text and gives its value with what it has left over.
-/

namespace FiniteState.Json

/-- Why a text cannot be read. -/
inductive Fault where
  | malformed
  /-- A value is of another kind than expected, or a field is missing or repeated. -/
  | unexpected
  | truncated
deriving DecidableEq, Inhabited

def Fault.message : Fault → String
  | .malformed => "the text is not JSON"
  | .unexpected => "a value is not what is expected"
  | .truncated => "the text ends too early"

/-- A function that takes a value from the beginning of a text. -/
abbrev Reader (α : Type) := List Char → Except Fault (α × List Char)

/-- Whether a character may stand between the parts of a text. -/
def isSpace (c : Char) : Bool := c == ' ' || c == '\n' || c == '\t' || c == '\r'

/-- A text without the space at its beginning. -/
def skipSpace (cs : List Char) : List Char := cs.dropWhile isSpace

/-- Takes the given characters, and nothing else, from the beginning of a text. -/
def exactly : List Char → Reader Unit
  | [], cs => .ok ((), cs)
  | _ :: _, [] => .error .truncated
  | w :: ws, c :: cs => if c = w then exactly ws cs else .error .malformed

/-! ## Strings -/

def hexValue? (c : Char) : Option Nat :=
  if '0' ≤ c ∧ c ≤ '9' then some (c.toNat - '0'.toNat)
  else if 'a' ≤ c ∧ c ≤ 'f' then some (c.toNat - 'a'.toNat + 10)
  else if 'A' ≤ c ∧ c ≤ 'F' then some (c.toNat - 'A'.toNat + 10)
  else none

/-- The number of bytes that characters take in UTF-8. -/
def byteLength (cs : List Char) : Nat := cs.foldl (fun n c => n + c.utf8Size) 0

/-- Takes four hexadecimal digits. A text is too short for them if it has less than four
bytes. -/
def fourHex : Reader Nat
  | a :: b :: c :: d :: cs =>
      match hexValue? a, hexValue? b, hexValue? c, hexValue? d with
      | some a, some b, some c, some d => .ok (((a * 16 + b) * 16 + c) * 16 + d, cs)
      | _, _, _, _ => .error .malformed
  | cs => if byteLength cs < 4 then .error .truncated else .error .malformed

/-- The character that a letter stands for behind a backslash. -/
def escaped? (c : Char) : Option Char :=
  if c = '"' then some '"'
  else if c = '\\' then some '\\'
  else if c = '/' then some '/'
  else if c = 'b' then some '\x08'
  else if c = 'f' then some '\x0c'
  else if c = 'n' then some '\n'
  else if c = 'r' then some '\r'
  else if c = 't' then some '\t'
  else none

/-- Whether a code unit is the first of a surrogate pair. -/
def isLeading (n : Nat) : Bool := 0xD800 ≤ n && n ≤ 0xDBFF

/-- Whether a code unit is the second of a surrogate pair. -/
def isTrailing (n : Nat) : Bool := 0xDC00 ≤ n && n ≤ 0xDFFF

/-- The character of a surrogate pair. -/
def pairChar (leading trailing : Nat) : Char :=
  Char.ofNat ((leading - 0xD800) * 0x400 + (trailing - 0xDC00) + 0x10000)

/-- Takes the second half of a surrogate pair, which is written like the first. -/
def trailingHalf (leading : Nat) : Reader Char
  | [] => .error .truncated
  | c :: cs =>
      if c = '\\' then
        match cs with
        | [] => .error .truncated
        | d :: cs =>
            if d = 'u' then
              match fourHex cs with
              | .error f => .error f
              | .ok (n, cs) =>
                  if isTrailing n then .ok (pairChar leading n, cs) else .error .malformed
            else .error .malformed
      else .error .malformed

/-- Takes a character that is written with hexadecimal digits. Halves of surrogate pairs
only stand for a character together. -/
def unicodeEscape : Reader Char := fun cs =>
  match fourHex cs with
  | .error f => .error f
  | .ok (n, cs) =>
      if isTrailing n then .error .malformed
      else if isLeading n then trailingHalf n cs
      else .ok (Char.ofNat n, cs)

/-- Takes hexadecimal digits for whatever they stand for. -/
def anyUnicodeEscape : Reader Char := fun cs =>
  match fourHex cs with
  | .error f => .error f
  | .ok (_, cs) => .ok (' ', cs)

/-- Takes what stands behind a backslash. -/
def escape (unicode : Reader Char) : Reader Char
  | [] => .error .truncated
  | c :: cs =>
      if c = 'u' then unicode cs
      else
        match escaped? c with
        | some e => .ok (e, cs)
        | none => .error .malformed

/-- Takes the rest of a string up to its closing quote, at most `n` characters of it.
`read` is what has been read of it, the last character first. -/
def stringRest (unicode : Reader Char) : Nat → List Char → Reader (List Char)
  | _, _, [] => .error .truncated
  | 0, _, _ :: _ => .error .truncated
  | n + 1, read, c :: cs =>
      if c = '"' then .ok (read.reverse, cs)
      else if c = '\\' then
        match escape unicode cs with
        | .error f => .error f
        | .ok (e, cs) => stringRest unicode n (e :: read) cs
      else if c.toNat < 0x20 then .error .malformed
      else stringRest unicode n (c :: read) cs

/-- Takes the rest of a string whose opening quote has been taken. -/
def stringBody : Reader String := fun cs =>
  match stringRest unicodeEscape cs.length [] cs with
  | .error f => .error f
  | .ok (s, cs) => .ok (String.ofList s, cs)

/-- Skips the rest of a string whose opening quote has been taken. -/
def skipString (cs : List Char) : Except Fault (List Char) :=
  match stringRest anyUnicodeEscape cs.length [] cs with
  | .error f => .error f
  | .ok (_, cs) => .ok cs

/-! ## Numbers -/

def digitValue? (c : Char) : Option Nat :=
  if '0' ≤ c ∧ c ≤ '9' then some (c.toNat - '0'.toNat) else none

def digits : List Char → List Nat × List Char
  | [] => ([], [])
  | c :: cs =>
      match digitValue? c with
      | some d => (d :: (digits cs).1, (digits cs).2)
      | none => ([], c :: cs)

def someDigits : Reader (List Nat) := fun cs =>
  match digits cs with
  | ([], []) => .error .truncated
  | ([], _ :: _) => .error .malformed
  | (ds, rest) => .ok (ds, rest)

/-- Takes the digits before the point. A zero stands alone. -/
def wholeDigits : Reader (List Nat) := fun cs =>
  match someDigits cs with
  | .error f => .error f
  | .ok (ds, rest) =>
      match ds with
      | 0 :: _ :: _ => .error .malformed
      | _ => .ok (ds, rest)

/-- Takes the digits behind the point, if there is one. -/
def fractionDigits : Reader (List Nat)
  | [] => .ok ([], [])
  | c :: cs => if c = '.' then someDigits cs else .ok ([], c :: cs)

/-- The number of decimal digits. -/
def ofDigits (ds : List Nat) : Nat := ds.foldl (fun n d => n * 10 + d) 0

/-- Takes the sign of an exponent: whether it is negative. -/
def exponentSign : List Char → Bool × List Char
  | [] => (false, [])
  | c :: cs =>
      if c = '-' then (true, cs) else if c = '+' then (false, cs) else (false, c :: cs)

def exponent : Reader Int
  | [] => .ok (0, [])
  | c :: cs =>
      if c = 'e' ∨ c = 'E' then
        let sign := exponentSign cs
        match someDigits sign.2 with
        | .error f => .error f
        | .ok (ds, rest) =>
            .ok (if sign.1 then -(ofDigits ds : Int) else (ofDigits ds : Int), rest)
      else .ok (0, c :: cs)

/-- Takes a number without its sign. -/
def unsigned (negative : Bool) : Reader Decimal.Numeral := fun cs =>
  match wholeDigits cs with
  | .error f => .error f
  | .ok (whole, cs) =>
      match fractionDigits cs with
      | .error f => .error f
      | .ok (fraction, cs) =>
          match exponent cs with
          | .error f => .error f
          | .ok (e, cs) => .ok (⟨negative, whole, fraction, e⟩, cs)

def numeral : Reader Decimal.Numeral
  | [] => .error .truncated
  | c :: cs => if c = '-' then unsigned true cs else unsigned false (c :: cs)

/-- Takes a number that floating point can hold. -/
def numberBody : Reader Float := fun cs =>
  match numeral cs with
  | .error f => .error f
  | .ok (n, cs) =>
      match n.toFloat? with
      | some x => .ok (x, cs)
      | none => .error .malformed

/-- Skips a number. One that ends too early is no number. -/
def skipNumber (cs : List Char) : Except Fault (List Char) :=
  match numeral cs with
  | .error _ => .error .malformed
  | .ok (_, cs) => .ok cs

/-- Whether a number may begin with a character. -/
def startsNumber (c : Char) : Bool := c == '-' || (digitValue? c).isSome

/-! ## Values of any kind -/

/-- The fault of a reader, or else that its value was not expected. -/
def orUnexpected {α : Type} : Except Fault α → Fault
  | .error f => f
  | .ok _ => .unexpected

/-- What is wrong with a text that begins with something else than expected. Values that
are not lists or records are read to their end before they are found to be of the wrong
kind. -/
def mismatch : List Char → Fault
  | [] => .truncated
  | c :: cs =>
      if c = 'n' then orUnexpected (exactly ['u', 'l', 'l'] cs)
      else if c = 't' then orUnexpected (exactly ['r', 'u', 'e'] cs)
      else if c = 'f' then orUnexpected (exactly ['a', 'l', 's', 'e'] cs)
      else if c = '"' then orUnexpected (stringBody cs)
      else if c = '[' ∨ c = '\x7b' then .unexpected
      else if startsNumber c then orUnexpected (numberBody (c :: cs))
      else .malformed

/-- A list or a record inside which a value stands. -/
inductive Enclosure where
  | list
  | record
deriving DecidableEq, Inhabited

/-- The character that ends an enclosure. -/
def Enclosure.closing : Enclosure → Char
  | .list => ']'
  | .record => '\x7d'

/-- Skips a key of a record and the colon behind it. -/
def skipKey (cs : List Char) : Except Fault (List Char) :=
  match skipSpace cs with
  | [] => .error .truncated
  | c :: cs =>
      if c = '"' then
        match skipString cs with
        | .error f => .error f
        | .ok cs =>
            match skipSpace cs with
            | [] => .error .truncated
            | d :: cs => if d = ':' then .ok cs else .error .malformed
      else .error .malformed

mutual

/-- Skips a value inside the given enclosures, innermost first, and all that follows it in
them. -/
def skipValueIn : Nat → List Enclosure → List Char → Except Fault (List Char)
  | 0, _, _ => .error .truncated
  | n + 1, outer, cs =>
      match skipSpace cs with
      | [] => .error .truncated
      | c :: cs =>
          if c = 'n' then skipRestAfter n outer ((exactly ['u', 'l', 'l'] cs).map Prod.snd)
          else if c = 't' then
            skipRestAfter n outer ((exactly ['r', 'u', 'e'] cs).map Prod.snd)
          else if c = 'f' then
            skipRestAfter n outer ((exactly ['a', 'l', 's', 'e'] cs).map Prod.snd)
          else if c = '"' then skipRestAfter n outer (skipString cs)
          else if startsNumber c then skipRestAfter n outer (skipNumber (c :: cs))
          else if c = '[' then
            match skipSpace cs with
            | [] => .error .truncated
            | d :: ds =>
                if d = ']' then skipRestAfter n outer (.ok ds)
                else skipValueIn n (.list :: outer) (d :: ds)
          else if c = '\x7b' then
            match skipSpace cs with
            | [] => .error .truncated
            | d :: ds =>
                if d = '\x7d' then skipRestAfter n outer (.ok ds)
                else
                  match skipKey (d :: ds) with
                  | .error f => .error f
                  | .ok ds => skipValueIn n (.record :: outer) ds
          else .error .malformed

/-- Skips what follows a value in its enclosures. -/
def skipRestAfter : Nat → List Enclosure → Except Fault (List Char) →
    Except Fault (List Char)
  | _, _, .error f => .error f
  | _, [], .ok cs => .ok cs
  | 0, _ :: _, .ok _ => .error .truncated
  | n + 1, e :: outer, .ok cs =>
      match skipSpace cs with
      | [] => .error .truncated
      | c :: cs =>
          if c = e.closing then skipRestAfter n outer (.ok cs)
          else if c = ',' then
            match e with
            | .list => skipValueIn n (.list :: outer) cs
            | .record =>
                match skipKey cs with
                | .error f => .error f
                | .ok cs => skipValueIn n (.record :: outer) cs
          else .error .malformed

end

/-- Skips a value of any kind. -/
def skipValue (cs : List Char) : Except Fault (List Char) :=
  skipValueIn (2 * cs.length + 2) [] cs

/-! ## Expected values -/

def string : Reader String := fun cs =>
  match skipSpace cs with
  | [] => .error .truncated
  | c :: cs => if c = '"' then stringBody cs else .error (mismatch (c :: cs))

def bool : Reader Bool := fun cs =>
  match skipSpace cs with
  | [] => .error .truncated
  | c :: cs =>
      if c = 't' then (exactly ['r', 'u', 'e'] cs).map fun r => (true, r.2)
      else if c = 'f' then (exactly ['a', 'l', 's', 'e'] cs).map fun r => (false, r.2)
      else .error (mismatch (c :: cs))

def number : Reader Float := fun cs =>
  match skipSpace cs with
  | [] => .error .truncated
  | c :: cs =>
      if startsNumber c then numberBody (c :: cs) else .error (mismatch (c :: cs))

/-- Takes a value or `null`. -/
def optional {α : Type} (item : Reader α) : Reader (Option α) := fun cs =>
  match skipSpace cs with
  | [] => .error .truncated
  | c :: cs =>
      if c = 'n' then (exactly ['u', 'l', 'l'] cs).map fun r => (none, r.2)
      else (item (c :: cs)).map fun r => (some r.1, r.2)

/-- Takes the items behind the first of a list, at most `n` of them. `read` is what has
been read of the list, the last item first. -/
def itemsAfter {α : Type} (item : Reader α) : Nat → List α → Reader (List α)
  | 0, _, _ => .error .truncated
  | n + 1, read, cs =>
      match skipSpace cs with
      | [] => .error .truncated
      | c :: cs =>
          if c = ']' then .ok (read.reverse, cs)
          else if c = ',' then
            match skipSpace cs with
            | [] => .error .truncated
            | d :: ds =>
                if d = ']' then .error .malformed
                else
                  match item (d :: ds) with
                  | .error f => .error f
                  | .ok (x, cs) => itemsAfter item n (x :: read) cs
          else .error .malformed

def list {α : Type} (item : Reader α) : Reader (List α) := fun cs =>
  match skipSpace cs with
  | [] => .error .truncated
  | c :: cs =>
      if c = '[' then
        match skipSpace cs with
        | [] => .error .truncated
        | d :: ds =>
            if d = ']' then .ok ([], ds)
            else
              match item (d :: ds) with
              | .error f => .error f
              | .ok (x, cs) => itemsAfter item (cs.length + 1) [x] cs
      else .error (mismatch (c :: cs))

/-! ## Records -/

/-- A field of a record: its name, and how its value changes what has been read. -/
structure FieldReader (δ : Type) where
  name : String
  read : Reader (δ → δ)

/-- Takes the end of a list of which all fields have been read. -/
def listEnd (cs : List Char) : Except Fault (List Char) :=
  match skipSpace cs with
  | [] => .error .truncated
  | c :: cs => if c = ']' then .ok cs else .error .malformed

/-- Takes the fields of a record in their order, from a list without names. If the fields
are `required` none may be missing, and else the last ones may. -/
def fieldsInOrder {δ : Type} (required : Bool) (first : Bool) (value : δ) :
    List (FieldReader δ) → Reader δ
  | [], cs => (listEnd cs).map fun rest => (value, rest)
  | field :: fields, cs =>
      match skipSpace cs with
      | [] => .error .truncated
      | c :: cs =>
          if c = ']' then if required then .error .unexpected else .ok (value, cs)
          else if first then
            match field.read (c :: cs) with
            | .error f => .error f
            | .ok (change, cs) => fieldsInOrder required false (change value) fields cs
          else if c = ',' then
            match skipSpace cs with
            | [] => .error .truncated
            | d :: ds =>
                if d = ']' then .error .malformed
                else
                  match field.read (d :: ds) with
                  | .error f => .error f
                  | .ok (change, cs) =>
                      fieldsInOrder required false (change value) fields cs
          else .error .malformed

def colon (cs : List Char) : Except Fault (List Char) :=
  match skipSpace cs with
  | [] => .error .truncated
  | c :: cs => if c = ':' then .ok cs else .error .malformed

/-- Takes a field whose opening quote has been taken, after the fields `seen` before. A
known field must not come twice; an unknown one is skipped. -/
def namedField {δ : Type} (fields : List (FieldReader δ)) (seen : List String)
    (value : δ) : Reader (δ × List String) := fun cs =>
  match stringBody cs with
  | .error f => .error f
  | .ok (key, cs) =>
      match fields.find? fun field => field.name == key with
      | none =>
          match colon cs with
          | .error f => .error f
          | .ok cs => (skipValue cs).map fun rest => ((value, seen), rest)
      | some field =>
          if seen.contains key then .error .unexpected
          else
            match colon cs with
            | .error f => .error f
            | .ok cs =>
                match field.read cs with
                | .error f => .error f
                | .ok (change, cs) => .ok ((change value, key :: seen), cs)

/-- What has been read of a record when it ends. -/
def recordEnd {δ : Type} (fields : List (FieldReader δ)) (required : Bool)
    (seen : List String) (value : δ) (cs : List Char) : Except Fault (δ × List Char) :=
  if required && !(fields.all fun field => seen.contains field.name) then
    .error .unexpected
  else .ok (value, cs)

/-- Takes the fields behind the first of a record, at most `n` of them. -/
def fieldsAfter {δ : Type} (fields : List (FieldReader δ)) (required : Bool) :
    Nat → List String → δ → Reader δ
  | 0, _, _, _ => .error .truncated
  | n + 1, seen, value, cs =>
      match skipSpace cs with
      | [] => .error .truncated
      | c :: cs =>
          if c = '\x7d' then recordEnd fields required seen value cs
          else if c = ',' then
            match skipSpace cs with
            | [] => .error .truncated
            | d :: ds =>
                if d = '"' then
                  match namedField fields seen value ds with
                  | .error f => .error f
                  | .ok ((value, seen), cs) => fieldsAfter fields required n seen value cs
                else .error .malformed
          else .error .malformed

/-- Takes a record, either with the names of its fields or as a list without names. -/
def record {δ : Type} (fields : List (FieldReader δ)) (required : Bool) (value : δ) :
    Reader δ := fun cs =>
  match skipSpace cs with
  | [] => .error .truncated
  | c :: cs =>
      if c = '[' then fieldsInOrder required true value fields cs
      else if c = '\x7b' then
        match skipSpace cs with
        | [] => .error .truncated
        | d :: ds =>
            if d = '\x7d' then recordEnd fields required [] value ds
            else if d = '"' then
              match namedField fields [] value ds with
              | .error f => .error f
              | .ok ((value, seen), cs) =>
                  fieldsAfter fields required (cs.length + 1) seen value cs
            else .error .malformed
      else .error (mismatch (c :: cs))

/-- Reads a whole text, behind whose value there may be nothing but space. -/
def readAll {α : Type} (value : Reader α) (text : String) : Except Fault α :=
  match value text.toList with
  | .error f => .error f
  | .ok (x, rest) => if (skipSpace rest).isEmpty then .ok x else .error .malformed

end FiniteState.Json
