import FiniteState.Automaton.Basic
import FiniteState.Regex.Basic

/-!
# The net of a regular expression

An expression is turned into a nondeterministic automaton by adding a fragment with one
entry and one exit for each of its nodes. A repetition takes over the fragment of its
body, unless the edge that skips the body could then be used in the middle of a match:
a body whose entry can be re-entered, or whose exit can be left again, gets an entry and
an exit of its own.
-/

namespace FiniteState

/-- All ways to go from one state of a net directly to another. -/
structure Arc where
  source : Nat
  target : Nat
  /-- The symbols that may be read on the way. -/
  symbols : Alphabet
  /-- Whether the way may be taken without reading. -/
  silent : Bool
deriving DecidableEq, Inhabited

/-- A net in the making: its states are the numbers below `size`, and no two arcs have the
same ends. -/
structure Net where
  size : Nat
  arcs : List Arc
deriving DecidableEq, Inhabited

/-- The entry and the exit of a part of a net. -/
structure Fragment where
  start : Nat
  accept : Nat
deriving DecidableEq, Inhabited

namespace Net

def empty : Net := ⟨0, []⟩

/-- Changes the arc between two states, which is a new arc without content if there has
been none. -/
def updateArc (source target : Nat) (f : Arc → Arc) : List Arc → List Arc
  | [] => [f ⟨source, target, .empty, false⟩]
  | arc :: arcs =>
      if arc.source = source ∧ arc.target = target then f arc :: arcs
      else arc :: updateArc source target f arcs

/-- Joins two states, without a way to go from one to the other yet. -/
def addBlank (n : Net) (source target : Nat) : Net :=
  { n with arcs := updateArc source target id n.arcs }

def addSymbol (n : Net) (source : Nat) (c : Char) (target : Nat) : Net :=
  { n with
    arcs := updateArc source target
      (fun arc => { arc with symbols := arc.symbols.insert c }) n.arcs }

def addSilent (n : Net) (source target : Nat) : Net :=
  { n with arcs := updateArc source target (fun arc => { arc with silent := true }) n.arcs }

/-- Adds two states, the entry and the exit of a new fragment. -/
def addFragment (n : Net) : Fragment × Net :=
  (⟨n.size, n.size + 1⟩, { n with size := n.size + 2 })

def hasIncoming (n : Net) (state : Nat) : Bool := n.arcs.any fun a => a.target == state

def hasOutgoing (n : Net) (state : Nat) : Bool := n.arcs.any fun a => a.source == state

/-- A fragment that no word leads through. -/
def addEmpty (n : Net) : Fragment × Net :=
  (n.addFragment.1, n.addFragment.2.addBlank n.size (n.size + 1))

/-- A fragment that one symbol leads through. -/
def addChar (n : Net) (c : Char) : Fragment × Net :=
  (n.addFragment.1, n.addFragment.2.addSymbol n.size c (n.size + 1))

/-- Puts silent ways around a fragment. -/
def enclose (n : Net) (outer inner : Fragment) : Net :=
  (n.addSilent outer.start inner.start).addSilent inner.accept outer.accept

/-- Silent ways from each fragment to the one after it. -/
def chain (n : Net) : List Fragment → Net
  | f :: g :: rest => chain (n.addSilent f.accept g.start) (g :: rest)
  | _ => n

/-- The fragment that begins with the first and ends with the last fragment of a list. -/
def span? : List Fragment → Option Fragment
  | [] => none
  | f :: rest => some ⟨f.start, ((f :: rest).getLast (by simp)).accept⟩

/-- A fragment for a sequence of fragments. -/
def sequence (n : Net) (fragments : List Fragment) : Fragment × Net :=
  match span? fragments with
  | some f => (f, n.chain fragments)
  | none => n.addEmpty

/-- Whether the edge that skips a fragment could be used in the middle of a match. -/
def mustIsolate (n : Net) (f : Fragment) : Bool :=
  n.hasIncoming f.start || n.hasOutgoing f.accept

/-- A fragment with an entry and an exit of its own around another. -/
def isolate (n : Net) (f : Fragment) : Fragment × Net :=
  (n.addFragment.1, n.addFragment.2.enclose n.addFragment.1 f)

def loopOrSkip (n : Net) (f : Fragment) : Fragment × Net :=
  (f, (n.addSilent f.accept f.start).addSilent f.start f.accept)

def star (n : Net) (f : Fragment) : Fragment × Net :=
  if n.mustIsolate f then (n.isolate f).2.loopOrSkip (n.isolate f).1
  else n.loopOrSkip f

def plus (n : Net) (f : Fragment) : Fragment × Net := (f, n.addSilent f.accept f.start)

end Net

namespace Regex

mutual

/-- Adds the fragment of an expression to a net. -/
def addTo (n : Net) : Regex → Fragment × Net
  | .empty => n.addEmpty
  | .char c => n.addChar c
  | .concat parts =>
      let inner := addParts n parts
      inner.2.sequence inner.1
  | .alt parts =>
      let outer := n.addFragment
      (outer.1, addChoices outer.2 outer.1 parts)
  | .many body =>
      let inner := addTo n body
      inner.2.star inner.1
  | .many1 body =>
      let inner := addTo n body
      inner.2.plus inner.1

def addParts (n : Net) : List Regex → List Fragment × Net
  | [] => ([], n)
  | part :: parts =>
      let first := addTo n part
      let rest := addParts first.2 parts
      (first.1 :: rest.1, rest.2)

/-- Adds the fragments of the parts of a choice, each inside the fragment `outer`. -/
def addChoices (n : Net) (outer : Fragment) : List Regex → Net
  | [] => n
  | part :: parts =>
      let inner := addTo n part
      addChoices (inner.2.enclose outer inner.1) outer parts

end

/-- The net of an expression and its fragment. -/
def net (r : Regex) : Fragment × Net := r.addTo .empty

end Regex

/-- The label of an arc: its symbols in order, and `ε` last. -/
def Arc.label (arc : Arc) : Label :=
  ⟨arc.symbols.symbols.map String.singleton ++
    (if arc.silent then [epsilonToken] else [])⟩

namespace Net

def stateName (stem : String) (state : Nat) : String := stem ++ toString state

/-- The states of a net, of which a fragment says where to start and to accept. -/
def states (n : Net) (stem : String) (f : Fragment) : List State :=
  (List.range n.size).map fun i =>
    ⟨stateName stem i, i == f.start, i == f.accept, none⟩

def transitions (n : Net) (stem : String) : List Transition :=
  n.arcs.map fun arc =>
    ⟨stateName stem arc.source, stateName stem arc.target, arc.label⟩

end Net

namespace Regex

/-- The nondeterministic automaton of an expression. Its states are called `stem` with a
number from zero. -/
def toAutomaton (r : Regex) (stem : String) : Automaton :=
  .ofLists (r.net.2.states stem r.net.1) (r.net.2.transitions stem)

end Regex

end FiniteState
