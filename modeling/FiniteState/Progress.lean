import FiniteState.Command.Execute
import FiniteState.Regex.Printer

/-!
# Progress

The constructions tell what they do while they do it. What they tell is a function of what
they work on, so it is kept apart from the constructions: here stands, for each of them,
the list of events in the order in which they happen.
-/

namespace FiniteState

/-- Something that a construction tells about itself. -/
inductive Event where
  /-- An expression was turned into an automaton with so many states. -/
  | compiled (regex : Regex) (states : Nat)
  /-- The subset construction met a new subset. -/
  | newSubset (name : String) (symbol : Char) (source : String)
  | determinised (states subsets symbols : Nat)
  | spliced (labels states : Nat)
  | split (s : Split)
  /-- States were merged into blocks. -/
  | merged (states blocks : Nat)
  | multiplied (left right pairs : Nat)
  | mismatched (m : Mismatch)
  /-- A command minimised an automaton. -/
  | minimised (before after : Nat)
deriving Inhabited

namespace Event

/-- Whether an event is one of the details of a construction. -/
def isDetail : Event → Bool
  | .newSubset .. => true
  | .split .. => true
  | .mismatched .. => true
  | _ => false

def message : Event → String
  | .compiled r states =>
      "compiled `" ++ r.display ++ "` into " ++ toString states ++ " NFA states"
  | .newSubset name symbol source =>
      "new subset " ++ name ++ " on '" ++ String.singleton symbol ++ "' from " ++ source
  | .determinised states subsets symbols =>
      "subset construction: " ++ toString states ++ " NFA states, " ++ toString subsets ++
        " DFA states, " ++ toString symbols ++ " symbols"
  | .spliced labels states =>
      "spliced " ++ toString labels ++ " regex labels, " ++ toString states ++
        " states in the reduced NFA"
  | .split s =>
      "split block " ++ toString s.block ++ " into " ++ toString s.parts ++ " blocks"
  | .merged states blocks =>
      "minimised " ++ toString states ++ " states into " ++ toString blocks ++ " blocks"
  | .multiplied left right pairs =>
      "product of " ++ toString left ++ " and " ++ toString right ++ " states has " ++
        toString pairs ++ " reachable states"
  | .mismatched (.acceptance left right) =>
      left ++ " and " ++ right ++ " disagree on acceptance"
  | .mismatched (.partner left right) => left ++ " cannot be paired with " ++ right
  | .minimised before after =>
      "minimised " ++ toString before ++ " states to " ++ toString after

/-- An event as a line, with its weight in front. -/
def line (e : Event) : String := (if e.isDetail then "TRACE " else "DEBUG ") ++ e.message

end Event

namespace Progress

/-- While an expression is turned into an automaton. -/
def compile (r : Regex) : List Event := [.compiled r r.net.2.size]

/-- The new subsets among the visits of a subset construction, with their names. -/
def newSubsets (nodes : List StateSet) (names : List String)
    (visits : List (Visit StateSet Char × String)) : List Event :=
  visits.filterMap fun v =>
    v.1.trail.head?.map fun step =>
      .newSubset v.2 step.2 (names.getD (nodes.idxOf step.1) "")

def determinise (a : Automaton) : List Event :=
  let m := Moves.ofAutomaton a
  let visits := m.machine.visits m.alphabet a.subsetCount
  let nodes := visits.map Visit.node
  let names := m.machine.namesOf nodes
  newSubsets nodes names (visits.zip names) ++
    [.determinised a.states.length nodes.length m.alphabet.size]

def minimiseTable (t : Table) : List Event :=
  t.refinement.2.map .split ++ [.merged t.size t.refinement.1.length]

def minimise (a : Automaton) : List Event :=
  match a.table? with
  | .error _ => []
  | .ok t => minimiseTable t

/-- While the product of two automata is made. -/
def combine (a b : Automaton) : List Event :=
  match a.table?, b.table? with
  | .ok l, .ok r =>
      let S := l.alphabet.union r.alphabet
      [.multiplied (l.completeOver S).size (r.completeOver S).size
        (l.product r fun _ _ => false).size]
  | _, _ => []

/-- While the languages of two automata are compared. -/
def equivalent (a b : Automaton) : List Event :=
  match a.validate none, b.validate none with
  | .ok S, .ok T => if S = T then combine a b else []
  | _, _ => []

/-- While the states of two automata are paired off. -/
def isomorphic (a b : Automaton) : List Event :=
  match a.table?, b.table? with
  | .ok l, .ok r =>
      if l.comparable r then
        match l.pairing r with
        | .error m => [.mismatched m]
        | .ok _ => []
      else []
  | _, _ => []

/-- The expressions on the transitions of a graph, up to the first that is faulty. -/
def expressions (alphabet : Option Alphabet) : List Transition → List Regex
  | [] => []
  | t :: ts =>
      if t.label.isPlain alphabet then expressions alphabet ts
      else
        match Automaton.expression t with
        | .ok r => r :: expressions alphabet ts
        | .error _ => []

/-- While the expressions on transitions are replaced. -/
def splice (a : Automaton) (alphabet : Option Alphabet) : List Event :=
  let found := expressions alphabet a.transitions
  found.flatMap compile ++
    match a.splice alphabet with
    | .ok n => [.spliced found.length n.states.length]
    | .error _ => []

/-- While a command makes an automaton deterministic and perhaps minimal. -/
def finish (a : Automaton) (options : Options) : List Event :=
  let d := a.determinise
  determinise a ++
    if options.minimise then
      minimise d ++
        match d.minimise with
        | .ok m => [.minimised d.states.length m.states.length]
        | .error _ => []
    else []

def regex (source : String) (options : Options) : List Event :=
  match Command.readRegex source options with
  | .ok r => compile r
  | .error _ => []

def execute (options : Options) : Command Automaton → List Event
  | .regex source =>
      regex source options ++
        match Command.readRegex source options with
        | .ok r => finish (r.toAutomaton Command.stem) options
        | .error _ => []
  | .nfa source => regex source options
  | .determinise a =>
      splice a options.alphabet ++
        match a.splice options.alphabet with
        | .ok n => finish n options
        | .error _ => []
  | .minimise a => minimise a
  | .combine _ a b => combine a b
  | .equivalent a b =>
      equivalent a b ++
        match a.equivalent b with
        | .ok false => combine a b
        | _ => []
  | .isomorphic a b => isomorphic a b
  | _ => []

end Progress

end FiniteState
