import FiniteState.Regex.Basic

/-!
# The text of a regular expression

An expression is written with no more parentheses than its tree asks for: around a
sequence or a choice that is a part of a sequence or is repeated, and around a choice
that is a part of a choice.
-/

namespace FiniteState.Regex

/-- Whether the tree has several parts at its root. -/
def isCompound : Regex → Bool
  | .concat _ => true
  | .alt _ => true
  | _ => false

def isAlt : Regex → Bool
  | .alt _ => true
  | _ => false

/-- A text, in parentheses if `grouped` says so. -/
def parenthesised (grouped : Bool) (text : List Char) : List Char :=
  if grouped then '(' :: (text ++ [')']) else text

mutual

def render : Regex → List Char
  | .empty => []
  | .char c => [c]
  | .concat parts => renderConcat parts
  | .alt parts => renderAlt parts
  | .many body => parenthesised body.isCompound body.render ++ ['*']
  | .many1 body => parenthesised body.isCompound body.render ++ ['+']

/-- The parts of a sequence, one after the other. -/
def renderConcat : List Regex → List Char
  | [] => []
  | part :: parts =>
      parenthesised part.isCompound part.render ++ renderConcat parts

/-- The parts of a choice with bars between them. -/
def renderAlt : List Regex → List Char
  | [] => []
  | [part] => parenthesised part.isAlt part.render
  | part :: parts =>
      parenthesised part.isAlt part.render ++ '|' :: renderAlt parts

end

/-- The text of an expression as a string. -/
def display (r : Regex) : String := String.ofList r.render

end FiniteState.Regex
