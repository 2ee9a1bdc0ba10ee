import FiniteState.Table.Basic

/-!
# Complete deterministic automata

An automaton is complete and deterministic over an alphabet if it has one start state, all
its transitions join existing states and are labelled with symbols, and every state has
exactly one transition on each symbol of the alphabet and none on any other. What stands
in the way is a defect; of several defects the first in the order of `Defect` is named.
-/

namespace FiniteState

/-- Why an automaton is not complete and deterministic. -/
inductive Defect where
  | noStartState
  | multipleStartStates (names : List String)
  /-- A transition names a state that does not exist. -/
  | unknownState (name : String)
  /-- A label, or one of its tokens, is empty. -/
  | emptyLabel (state : String)
  | epsilon (state : String)
  | multiCharSymbol (state token : String)
  | duplicateSymbol (state : String) (symbol : Char)
  | missingSymbols (state : String) (symbols : List Char)
  | extraSymbols (state : String) (symbols : List Char)
  | noTransitions
deriving DecidableEq, Inhabited

/-- Characters with commas and spaces between them. -/
def listSymbols (cs : List Char) : String :=
  String.intercalate ", " (cs.map String.singleton)

def Defect.message : Defect → String
  | .noStartState => "there is no start state"
  | .multipleStartStates names =>
      "there are " ++ toString names.length ++ " start states: " ++
        String.intercalate ", " names
  | .unknownState name => "a transition refers to the unknown state " ++ name
  | .emptyLabel state => "state " ++ state ++ " has a transition with an empty label"
  | .epsilon state => "state " ++ state ++ " has an ε-transition"
  | .multiCharSymbol state token =>
      "state " ++ state ++ " has a transition on `" ++ token ++
        "`, which is not a single symbol"
  | .duplicateSymbol state symbol =>
      "state " ++ state ++ " has more than one transition on " ++ String.singleton symbol
  | .missingSymbols state symbols =>
      "state " ++ state ++ " has no transition on " ++ listSymbols symbols
  | .extraSymbols state symbols =>
      "state " ++ state ++ " has transitions on " ++ listSymbols symbols ++
        ", which are not in the alphabet"
  | .noTransitions => "there are no transitions"

namespace Automaton

def checkStart (a : Automaton) : Except Defect Unit :=
  match stateNames a.starts with
  | [] => .error .noStartState
  | [_] => .ok ()
  | names => .error (.multipleStartStates names)

/-- The endpoints of the transitions, in order, that are no states. -/
def unknownEndpoints (a : Automaton) : List String :=
  (a.transitions.flatMap fun t => [t.source, t.target]).filter fun name =>
    !a.hasState name

def checkEndpoints (a : Automaton) : Except Defect Unit :=
  match a.unknownEndpoints with
  | [] => .ok ()
  | name :: _ => .error (.unknownState name)

/-- The symbols of the tokens of one label, after the symbols `seen` before. -/
def tokenSymbols (state : String) (seen : Alphabet) :
    List String → Except Defect Alphabet
  | [] => .ok seen
  | token :: tokens =>
      if token = "" then .error (.emptyLabel state)
      else if token = epsilonToken then .error (.epsilon state)
      else
        match symbolOf? token with
        | none => .error (.multiCharSymbol state token)
        | some c =>
            if c ∈ seen then .error (.duplicateSymbol state c)
            else tokenSymbols state (seen.insert c) tokens

/-- The symbols of the labels that leave one state, after the symbols `seen` before. -/
def labelSymbols (state : String) (seen : Alphabet) :
    List Label → Except Defect Alphabet
  | [] => .ok seen
  | label :: labels =>
      if label.tokens.isEmpty then .error (.emptyLabel state)
      else
        match tokenSymbols state seen label.tokens with
        | .error d => .error d
        | .ok seen => labelSymbols state seen labels

/-- The symbols of each state, if all labels are lists of symbols without repetition. -/
def symbolTable (a : Automaton) : List String → Except Defect (List (String × Alphabet))
  | [] => .ok []
  | name :: names =>
      match labelSymbols name .empty ((a.outgoing name).map Transition.label) with
      | .error d => .error d
      | .ok S =>
          match symbolTable a names with
          | .error d => .error d
          | .ok rest => .ok ((name, S) :: rest)

/-- The first of the largest alphabets, if one is larger than `best`. -/
def largest (best : Alphabet) : List Alphabet → Alphabet
  | [] => best
  | S :: rest => largest (if best.size < S.size then S else best) rest

/-- Every state has the symbols of `S` and no others. -/
def checkSymbols (S : Alphabet) : List (String × Alphabet) → Except Defect Unit
  | [] => .ok ()
  | (name, T) :: rest =>
      if !(S.without T).isEmpty then .error (.missingSymbols name (S.without T))
      else if !(T.without S).isEmpty then .error (.extraSymbols name (T.without S))
      else checkSymbols S rest

/-- The alphabet over which the automaton is complete and deterministic. If none is given,
it is the largest set of symbols that leave one state. -/
def validate (a : Automaton) (given : Option Alphabet) : Except Defect Alphabet :=
  match a.checkStart with
  | .error d => .error d
  | .ok () =>
      match a.checkEndpoints with
      | .error d => .error d
      | .ok () =>
          match a.symbolTable a.names with
          | .error d => .error d
          | .ok table =>
              let S := given.getD (largest .empty (table.map Prod.snd))
              match checkSymbols S table with
              | .error d => .error d
              | .ok () =>
                  if a.transitions.isEmpty then .error .noTransitions else .ok S

/-- The number of the state to which a symbol leads from a state. -/
def targetOf (a : Automaton) (name : String) (c : Char) : Nat :=
  match (a.outgoing name).find? fun t => t.label.symbols.contains c with
  | some t => a.names.idxOf t.target
  | none => 0

/-- The rows of a complete deterministic automaton. -/
def rowsOver (a : Automaton) (S : Alphabet) : List Row :=
  a.states.map fun s => ⟨s.name, s.accepting, S.symbols.map (a.targetOf s.name)⟩

/-- The table of a complete deterministic automaton. -/
def table? (a : Automaton) : Except Defect Table :=
  match a.validate none with
  | .error d => .error d
  | .ok S => .ok ⟨S, a.states.findIdx State.starting, a.rowsOver S⟩

/-- What the automaton says of a word. One that is not complete and deterministic crashes
on every word. -/
def verdict (a : Automaton) (w : List Char) : Verdict :=
  match a.table? with
  | .error _ => .crash
  | .ok t => t.verdict w

end Automaton

end FiniteState
