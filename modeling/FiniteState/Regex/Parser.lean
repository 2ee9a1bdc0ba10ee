import FiniteState.Regex.Basic

/-!
# Reading regular expressions

A text is read in two passes. The first looks at the parentheses alone: one that closes
nothing, or else one that is never closed, makes the text unreadable whatever else it
holds. The second reads the characters from left to right and keeps, for every group
that is open, the operands met so far. An operand that is missing between two bars is
missed only when its group is complete, so the leftmost repetition without an operand is
reported before it.

Offsets and spans count bytes of the text in UTF-8.
-/

namespace FiniteState.Regex

/-- A part of a text, from the byte `start` up to and without the byte `stop`. -/
structure Span where
  start : Nat
  stop : Nat
deriving DecidableEq, Inhabited

/-- The span of one ASCII character. -/
def Span.single (offset : Nat) : Span := ⟨offset, offset + 1⟩

/-- Why a text is no regular expression. -/
inductive Fault where
  | unclosedParen
  | unopenedParen
  | missingOperand
deriving DecidableEq, Inhabited

def Fault.message : Fault → String
  | .unclosedParen => "unclosed parenthesis"
  | .unopenedParen => "unmatched closing parenthesis"
  | .missingOperand => "missing operand"

structure ParseError where
  fault : Fault
  span : Span
deriving DecidableEq, Inhabited

def ParseError.message (e : ParseError) : String :=
  e.fault.message ++ " at " ++ toString e.span.start ++ ".." ++ toString e.span.stop

/-- Looks at the parentheses of a text that starts at `offset` inside the groups opened
at the offsets `opened`, innermost first. -/
def checkParens (opened : List Nat) (offset : Nat) : List Char → Except ParseError Unit
  | [] =>
      match opened with
      | [] => .ok ()
      | start :: _ => .error ⟨.unclosedParen, .single start⟩
  | c :: cs =>
      if c = '(' then checkParens (offset :: opened) (offset + c.utf8Size) cs
      else if c = ')' then
        match opened with
        | [] => .error ⟨.unopenedParen, .single offset⟩
        | _ :: outer => checkParens outer (offset + c.utf8Size) cs
      else checkParens opened (offset + c.utf8Size) cs

/-- What has been read of a group: the operands since the last bar, and for each bar its
offset and the operands before it. All lists have the latest item first. -/
structure Level where
  bars : List (Nat × List Regex)
  run : List Regex
deriving Inhabited

namespace Level

def empty : Level := ⟨[], []⟩

def push (l : Level) (r : Regex) : Level := { l with run := r :: l.run }

def bar (l : Level) (offset : Nat) : Level := ⟨(offset, l.run) :: l.bars, []⟩

/-- The last operand of a group is repeated as `quantifier` says. -/
def repeatLast (l : Level) (quantifier : Regex → Regex) (offset : Nat) :
    Except ParseError Level :=
  match l.run with
  | [] => .error ⟨.missingOperand, .single offset⟩
  | r :: run => .ok { l with run := quantifier r :: run }

end Level

/-- The expression of a complete group whose text is `span`. Between two bars, and at
both ends of the group, there has to be an operand. -/
def Level.close (l : Level) (span : Span) : Except ParseError Regex :=
  match l.bars.reverse.find? (fun b => b.2.isEmpty) with
  | some (offset, _) => .error ⟨.missingOperand, .single offset⟩
  | none =>
      if l.run.isEmpty then
        match l.bars with
        | [] => .error ⟨.missingOperand, span⟩
        | (offset, _) :: _ => .error ⟨.missingOperand, .single offset⟩
      else
        .ok (choice ((l.bars.reverse.map fun b => sequence b.2.reverse) ++
          [sequence l.run.reverse]))

/-- Reads the rest of a text, which starts at `offset`, inside the group `level`, which
stands in the groups `outer`, innermost first and each with the offset of the
parenthesis that opened the next one. -/
def read (outer : List (Nat × Level)) (level : Level) (offset : Nat) :
    List Char → Except ParseError Regex
  | [] =>
      match outer with
      | [] => level.close ⟨0, offset⟩
      | (start, _) :: _ => .error ⟨.unclosedParen, .single start⟩
  | c :: cs =>
      if c = '(' then read ((offset, level) :: outer) .empty (offset + c.utf8Size) cs
      else if c = ')' then
        match outer with
        | [] => .error ⟨.unopenedParen, .single offset⟩
        | (start, before) :: outer =>
            match level.close ⟨start, offset + 1⟩ with
            | .error e => .error e
            | .ok group => read outer (before.push group) (offset + c.utf8Size) cs
      else if c = '*' then
        match level.repeatLast .many offset with
        | .error e => .error e
        | .ok level => read outer level (offset + c.utf8Size) cs
      else if c = '+' then
        match level.repeatLast .many1 offset with
        | .error e => .error e
        | .ok level => read outer level (offset + c.utf8Size) cs
      else if c = '|' then read outer (level.bar offset) (offset + c.utf8Size) cs
      else read outer (level.push (.char c)) (offset + c.utf8Size) cs

/-- Reads a text that is given by its characters. -/
def parseChars (cs : List Char) : Except ParseError Regex :=
  match cs with
  | [] => .ok .empty
  | cs =>
      match checkParens [] 0 cs with
      | .error e => .error e
      | .ok () => read [] .empty 0 cs

/-- Reads a regular expression. The empty text is the empty expression. -/
def parse (source : String) : Except ParseError Regex := parseChars source.toList

@[simp] theorem parseChars_nil : parseChars [] = .ok .empty := rfl

end FiniteState.Regex
