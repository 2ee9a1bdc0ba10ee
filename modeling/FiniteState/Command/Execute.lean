import FiniteState.Command.Basic
import FiniteState.Document
import FiniteState.Table.Minimise
import FiniteState.Table.Pairing
import FiniteState.Text.Quoted
import FiniteState.Tracer

/-!
# Carrying out commands

The text that a command prints, or why it prints none.
-/

namespace FiniteState

structure Options where
  /-- The symbols that expressions may use; also the alphabet for validation, and what
  tells symbols from expressions in labels. -/
  alphabet : Option Alphabet
  /-- Whether automata made from expressions and nondeterministic automata are minimised. -/
  minimise : Bool
  /-- Whether documents are written on several lines. -/
  pretty : Bool
deriving Inhabited

/-- The options of a command line that sets none. -/
def Options.default : Options := ⟨none, true, true⟩

namespace Command

/-- The least literal of an expression that is not in the alphabet, if one is given. -/
def foreignSymbol? (r : Regex) (alphabet : Option Alphabet) : Option Char :=
  match alphabet with
  | none => none
  | some S => (r.symbols.without S).head?

/-- Reads an expression over the alphabet of the options. -/
def readRegex (source : String) (options : Options) : Except Failure Regex :=
  match Regex.parse source with
  | .error e => .error (.regex source e)
  | .ok r =>
      match foreignSymbol? r options.alphabet with
      | some c => .error (.unknownSymbol c)
      | none => .ok r

/-- The stem of the names of the states that expressions are turned into. -/
def stem : String := "q"

/-- The deterministic automaton of an automaton, minimised if the options say so. -/
def finish (a : Automaton) (options : Options) : Except Failure Automaton :=
  if options.minimise then a.determinise.minimise.mapError .invalid
  else .ok a.determinise

/-- The outcome of running an automaton on words, a line for each. -/
def runLines (a : Automaton) (words : List String) : List String :=
  words.map fun w => Text.quoted w.toList ++ ": " ++ (a.verdict w.toList).text

/-- The answer whether two automata have the same alphabet and language. -/
def equivalence (a b : Automaton) : Except Defect (List String) :=
  match a.equivalent b with
  | .error d => .error d
  | .ok true => .ok ["equivalent"]
  | .ok false =>
      match a.distinguishing? b with
      | .error d => .error d
      | .ok none => .ok ["not equivalent: the alphabets differ"]
      | .ok (some w) =>
          if (a.validate none).toOption = (b.validate none).toOption then
            .ok ["not equivalent", "witness: " ++ Text.quoted w]
          else .ok ["not equivalent: the alphabets differ"]

/-- A word that an automaton accepts, in quotes. -/
def acceptedWord (a : Automaton) : Except Defect (List String) :=
  match a.validate none with
  | .error d => .error d
  | .ok _ =>
      match a.witness? with
      | some w => .ok [Text.quoted w]
      | none => .ok ["empty"]

/-- The lines for a sequence of moves of a tracer, and the tracer after them. -/
def traceMoves (t : Tracer) : List String → List String × Tracer
  | [] => ([], t)
  | name :: names =>
      let line := t.state ++ " -> " ++ name ++
        match t.move name with
        | .ok _ => ""
        | .error refusal => ": " ++ refusal.message
      let rest := traceMoves (t.tryMove name) names
      (line :: rest.1, rest.2)

def traceEnd (t : Tracer) : String :=
  match t.verdict? with
  | some verdict => "verdict: " ++ verdict.text
  | none => "read " ++ Text.quoted t.consumed ++ ", input not finished"

/-- The lines for a word that is followed move by move. -/
def traceLines (a : Automaton) (word : String) (moves : List String) :
    Except Defect (List String) :=
  match Tracer.start a word.toList with
  | .error d => .error d
  | .ok t => .ok ((traceMoves t moves).1 ++ [traceEnd (traceMoves t moves).2])

/-- What a command comes to. -/
inductive Result where
  /-- An automaton that is printed as a deterministic one. -/
  | deterministic (a : Automaton)
  /-- An automaton that is printed as a nondeterministic one. -/
  | nondeterministic (a : Automaton)
  | text (lines : List String)

def Result.render (options : Options) : Result → String
  | .deterministic a => a.deterministicDocument.render options.pretty
  | .nondeterministic a => a.nondeterministicDocument.render options.pretty
  | .text lines => String.intercalate "\n" lines

def result (options : Options) : Command Automaton → Except Failure Result
  | .regex source =>
      match readRegex source options with
      | .error e => .error e
      | .ok r => (finish (r.toAutomaton stem) options).map .deterministic
  | .nfa source =>
      (readRegex source options).map fun r => .nondeterministic (r.toAutomaton stem)
  | .determinise a =>
      match a.splice options.alphabet with
      | .error e => .error (.label e)
      | .ok n => (finish n options).map .deterministic
  | .validate a =>
      match a.validate options.alphabet with
      | .error d => .error (.invalid d)
      | .ok S => .ok (.text ["valid", "alphabet: " ++ listSymbols S.symbols])
  | .run a words => .ok (.text (runLines a words))
  | .minimise a => (a.minimise.mapError .invalid).map .deterministic
  | .invert a => .ok (.deterministic a.invert)
  | .combine op a b => ((a.combine b op.apply).mapError .invalid).map .deterministic
  | .equivalent a b => ((equivalence a b).mapError .invalid).map .text
  | .isomorphic a b =>
      .ok (.text [if a.isomorphic b then "isomorphic" else "not isomorphic"])
  | .witness a => ((acceptedWord a).mapError .invalid).map .text
  | .trace a word moves => ((traceLines a word moves).mapError .invalid).map .text

def execute (options : Options) (command : Command Automaton) : Except Failure String :=
  (result options command).map (Result.render options)

end Command

end FiniteState
