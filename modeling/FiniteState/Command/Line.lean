import FiniteState.Command.Execute

/-!
# The command line

Options may stand anywhere among the operands. A short option is one letter behind a dash
and several may share a dash; a long option is a word behind two dashes. The value of an
option stands in the same argument or in the next one, whatever that looks like. Two
dashes alone end the options, and one dash alone is an operand.
-/

namespace FiniteState.Command

/-- An option of the command line. -/
inductive Switch where
  | alphabet
  | noMinimise
  | compact
  | verbose
  | help
deriving DecidableEq, Inhabited

namespace Switch

/-- All options, in the order in which repetitions are looked for. -/
def all : List Switch := [.alphabet, .noMinimise, .compact, .verbose, .help]

def long : Switch → String
  | .alphabet => "alphabet"
  | .noMinimise => "no-minimise"
  | .compact => "compact"
  | .verbose => "verbose"
  | .help => "help"

/-- The letter of an option, if it has one. -/
def short? : Switch → Option Char
  | .alphabet => some 'a'
  | .noMinimise => none
  | .compact => none
  | .verbose => some 'v'
  | .help => some 'h'

def takesValue : Switch → Bool
  | .alphabet => true
  | _ => false

def ofLetter? (c : Char) : Option Switch := all.find? fun s => s.short? == some c

/-- The option with a name. A name of one byte is a letter, even behind two dashes. -/
def ofName? (name : String) : Option Switch :=
  match name.toList with
  | [c] => if c.utf8Size = 1 then ofLetter? c else all.find? fun s => s.long == name
  | _ => all.find? fun s => s.long == name

end Switch

/-- What has been read of a command line: the options with their values, and the operands,
both with the latest first. -/
structure Arguments where
  given : List (Switch × String)
  operands : List String
deriving Inhabited

namespace Arguments

/-- A command line of which nothing has been read. -/
def empty : Arguments := ⟨[], []⟩

def give (a : Arguments) (s : Switch) (value : String) : Arguments :=
  { a with given := (s, value) :: a.given }

/-- The values of an option, the latest first. -/
def values (a : Arguments) (s : Switch) : List String :=
  (a.given.filter fun g => g.1 == s).map Prod.snd

def has (a : Arguments) (s : Switch) : Bool := a.given.any fun g => g.1 == s

end Arguments

/-- What one argument asks for. -/
inductive Argument where
  /-- An operand, or what has to be read as one. -/
  | operand
  | optionsEnd
  /-- An option by its long name, and the value behind the equals sign if there is one. -/
  | long (name : List Char) (value : Option (List Char))
  | cluster (letters : List Char)
deriving DecidableEq, Inhabited

/-- A text up to its first equals sign, and what stands behind that. -/
def splitValue : List Char → List Char × Option (List Char)
  | [] => ([], none)
  | c :: cs =>
      if c = '=' then ([], some cs)
      else (c :: (splitValue cs).1, (splitValue cs).2)

/-- Tells what an argument is. -/
def Argument.ofChars : List Char → Argument
  | '-' :: '-' :: [] => .optionsEnd
  | '-' :: '-' :: rest => .long (splitValue rest).1 (splitValue rest).2
  | '-' :: c :: rest => .cluster (c :: rest)
  | _ => .operand

/-- Reads the letters behind one dash, up to one whose option takes a value. That option is
given back with the rest of the argument. -/
def readLetters (a : Arguments) :
    List Char → Except Misuse (Arguments × Option (Switch × Char × List Char))
  | [] => .ok (a, none)
  | c :: cs =>
      match Switch.ofLetter? c with
      | none => .error (.unrecognizedOption (String.singleton c))
      | some s =>
          if s.takesValue then .ok (a, some (s, c, cs))
          else readLetters (a.give s "") cs

/-- Gives an option its value, or the next argument in place of a value, which is then no
longer among the arguments to be read. `none` stands for a value that is missing. -/
def takeValue (value : Option (List Char)) (rest : List String) :
    Option (String × List String) :=
  match value with
  | some cs => some (String.ofList cs, rest)
  | none =>
      match rest with
      | [] => none
      | next :: rest => some (next, rest)

theorem length_takeValue (value : Option (List Char)) (rest : List String)
    (r : String × List String) (h : takeValue value rest = some r) :
    r.2.length ≤ rest.length := by
  cases value with
  | some cs => simp only [takeValue, Option.some.injEq] at h; subst h; simp
  | none =>
      cases rest with
      | nil => simp [takeValue] at h
      | cons next rest => simp only [takeValue, Option.some.injEq] at h; subst h; simp

/-- Reads the arguments of a command line in turn. -/
def readArguments (a : Arguments) : List String → Except Misuse Arguments
  | [] => .ok a
  | argument :: rest =>
      match Argument.ofChars argument.toList with
      | .operand => readArguments { a with operands := argument :: a.operands } rest
      | .optionsEnd => .ok { a with operands := rest.reverse ++ a.operands }
      | .long name value =>
          match Switch.ofName? (String.ofList name) with
          | none => .error (.unrecognizedOption (String.ofList name))
          | some s =>
              if s.takesValue then
                match h : takeValue value rest with
                | none => .error (.missingArgument (String.ofList name))
                | some r =>
                    have := length_takeValue value rest r h
                    readArguments (a.give s r.1) r.2
              else
                match value with
                | some _ => .error (.unexpectedArgument (String.ofList name))
                | none => readArguments (a.give s "") rest
      | .cluster letters =>
          match readLetters a letters with
          | .error e => .error e
          | .ok (a, none) => readArguments a rest
          | .ok (a, some (s, c, cs)) =>
              match h : takeValue (if cs.isEmpty then none else some cs) rest with
              | none => .error (.missingArgument (String.singleton c))
              | some r =>
                  have := length_takeValue _ rest r h
                  readArguments (a.give s r.1) r.2
termination_by arguments => arguments.length
decreasing_by
  all_goals simp only [List.length_cons]; omega

/-- A command line that can be carried out. -/
structure Invocation where
  options : Options
  verbose : Bool
  command : String
  operands : List String
deriving Inhabited

/-- The first option that is given more than once. -/
def repeated? (a : Arguments) : Option Switch :=
  Switch.all.find? fun s => decide (1 < (a.values s).length)

/-- The alphabet that a list of symbols stands for. Commas and blanks are no symbols. -/
def readAlphabet (symbols : String) : Alphabet :=
  Alphabet.ofList (symbols.toList.filter fun c => !(c == ',' || Text.isBlank c))

/-- Reads a command line. There is no invocation if it asks for help. -/
def readLine (arguments : List String) : Except Misuse (Option Invocation) :=
  match readArguments .empty arguments with
  | .error e => .error e
  | .ok a =>
      match repeated? a with
      | some s => .error (.repeatedOption s.long)
      | none =>
          if a.has .help then .ok none
          else
            match a.operands.reverse with
            | [] => .error .missingCommand
            | command :: operands =>
                .ok (some
                  { options :=
                      { alphabet := (a.values .alphabet).head?.map readAlphabet
                        minimise := !a.has .noMinimise
                        pretty := !a.has .compact }
                    verbose := a.has .verbose
                    command := command
                    operands := operands })

def programName : String := "fsa"

/-- What is shown to someone who asks how to use the program. -/
def usage : String :=
  String.intercalate "\n"
    ["Usage: " ++ programName ++ " [options] COMMAND ARGS...",
     "",
     "Options:",
     "    -a, --alphabet SYMBOLS",
     "                        Symbols of the regex alphabet, e.g. `abc`. Also fixes",
     "                        the alphabet",
     "                        for validation and for GNFA labels",
     "        --no-minimise   Do not minimise converted DFAs",
     "        --compact       Print JSON on a single line",
     "    -v, --verbose       Log progress to stderr",
     "    -h, --help          Print this message",
     "",
     "Commands:",
     "    regex REGEX                 compile a regex to a DFA",
     "    nfa REGEX                   compile a regex to an NFA",
     "    determinise FILE            convert an NFA or GNFA to a DFA",
     "    validate FILE               check that FILE is a complete DFA",
     "    run FILE WORD...            run the DFA on each word",
     "    minimise FILE               minimise the DFA",
     "    invert FILE                 complement the DFA",
     "    and|or|xor FILE FILE        product of two DFAs",
     "    equivalent FILE FILE        compare languages",
     "    isomorphic FILE FILE        compare structure",
     "    witness FILE                print an accepted word",
     "    trace FILE WORD STATE...    follow WORD state by state",
     ""]

end FiniteState.Command
