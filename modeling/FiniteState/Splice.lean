import FiniteState.Regex.Net
import FiniteState.Regex.Parser

/-!
# Graphs with regular expressions on their transitions

A transition whose label is a regular expression is replaced by the net of the expression,
joined to the two ends of the transition by silent transitions. The names of the new
states begin so that no state of the graph had such a name.
-/

namespace FiniteState

/-- The label of a transition is no regular expression. -/
structure LabelError where
  source : String
  target : String
  label : String
  cause : Regex.ParseError
deriving DecidableEq, Inhabited

/-- The wording of a label error, without its cause. -/
def LabelError.message (e : LabelError) : String :=
  "the label `" ++ e.label ++ "` from " ++ e.source ++ " to " ++ e.target ++
    " is not a valid regex"

def stemTaken (names : List String) (stem : String) : Bool :=
  names.any fun name => stem.toList.isPrefixOf name.toList

/-- Puts at most `n` underscores before a stem, as long as it is taken. -/
def padStem (names : List String) : Nat → String → String
  | 0, stem => stem
  | n + 1, stem => if stemTaken names stem then padStem names n ("_" ++ stem) else stem

/-- A stem with which no name begins. A stem longer than all names is never taken. -/
def freeStem (names : List String) (stem : String) : String :=
  padStem names ((names.map String.length).foldl max 0 + 1) stem

namespace Automaton

/-- Adds the states of another automaton, none of which start or accept. -/
def addInner (a b : Automaton) : Automaton :=
  b.states.foldl (fun a s => a.addState s.name false false) a

/-- The transitions that replace one transition from `source` to `target` by an
automaton. -/
def spliceTransitions (b : Automaton) (source target : String) : List Transition :=
  b.starts.map (fun s => ⟨source, s.name, Label.epsilon⟩) ++
    (b.acceptings.map (fun s => ⟨s.name, target, Label.epsilon⟩) ++ b.transitions)

def expression (t : Transition) : Except LabelError Regex :=
  match Regex.parse t.label.source with
  | .ok r => .ok r
  | .error e => .error ⟨t.source, t.target, t.label.source, e⟩

/-- The stem of the names of the states that replace the transition with the number
`i`. -/
def stemFor (names : List String) (i : Nat) : String :=
  freeStem names ("t" ++ toString i ++ ".")

/-- The automaton that a transition is replaced by, if its label is an expression. -/
def inner? (names : List String) (alphabet : Option Alphabet) (i : Nat)
    (t : Transition) : Except LabelError (Option Automaton) :=
  if t.label.isPlain alphabet then .ok none
  else
    match expression t with
    | .ok r => .ok (some (r.toAutomaton (stemFor names i)))
    | .error e => .error e

/-- Adds the transitions with the numbers from `i` on to `built`, each as it is or replaced
by an automaton. `names` are the names of the states of the graph. -/
def spliceFrom (names : List String) (alphabet : Option Alphabet) :
    Nat → Automaton → List Transition → Except LabelError Automaton
  | _, built, [] => .ok built
  | i, built, t :: ts =>
      match inner? names alphabet i t with
      | .error e => .error e
      | .ok none =>
          spliceFrom names alphabet (i + 1)
            { built with transitions := built.transitions ++ [t] } ts
      | .ok (some b) =>
          let grown := built.addInner b
          spliceFrom names alphabet (i + 1)
            { grown with
              transitions := grown.transitions ++ spliceTransitions b t.source t.target }
            ts

/-- The nondeterministic automaton of a graph whose labels may be regular expressions. An
alphabet tells symbols from expressions of one character. -/
def splice (a : Automaton) (alphabet : Option Alphabet) : Except LabelError Automaton :=
  spliceFrom a.names alphabet 0 { a with transitions := [] } a.transitions

end Automaton

end FiniteState
