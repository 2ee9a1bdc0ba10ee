import FiniteState.Regex.Basic
import FiniteState.Text.Blank
import FiniteState.Text.Split

/-!
# Labels of transitions

A label is a list of tokens, kept as written. In a deterministic automaton each token is
one symbol; in a nondeterministic one it may also be the blank token `ε`; in a graph
labelled with regular expressions the tokens, joined again by commas, are the text of
an expression.
-/

namespace FiniteState

/-- The token that stands for reading nothing. -/
def epsilonToken : String := "ε"

/-- The symbol that a token stands for: its character, if it has exactly one and that is
not `ε`. -/
def symbolOf? (token : String) : Option Char :=
  match token.toList with
  | [c] => if c = epsilonChar then none else some c
  | _ => none

structure Label where
  tokens : List String
deriving DecidableEq, Inhabited

namespace Label

/-- Reads a label: the tokens stand between commas, and blanks around them do not
count. -/
def parse (source : String) : Label :=
  ⟨(Text.split ',' source.toList).map fun part => String.ofList (Text.trim part)⟩

def epsilon : Label := ⟨[epsilonToken]⟩

/-- One token for each symbol of an alphabet, in order. -/
def ofAlphabet (S : Alphabet) : Label := ⟨S.symbols.map String.singleton⟩

/-- One token for each character, in order and without repetitions. -/
def ofSymbols (cs : List Char) : Label := ofAlphabet (Alphabet.ofList cs)

/-- The symbols among the tokens, in the order of the tokens. -/
def symbols (l : Label) : List Char := l.tokens.filterMap symbolOf?

/-- Whether the label may be passed without reading. -/
def hasEpsilon (l : Label) : Bool := l.tokens.contains epsilonToken

/-- The tokens joined by bare commas: the text that is read as a regular expression. -/
def source (l : Label) : String := String.intercalate "," l.tokens

/-- The tokens joined by commas and spaces: the text that documents hold. -/
def render (l : Label) : String := String.intercalate ", " l.tokens

/-- Whether one token is `ε` or a symbol. With an alphabet the symbol has to belong to
it; without one, the operators of regular expressions are no symbols. -/
def isPlainToken (alphabet : Option Alphabet) (token : String) : Bool :=
  token == epsilonToken ||
    match symbolOf? token with
    | none => false
    | some c =>
        match alphabet with
        | some S => decide (c ∈ S)
        | none => !Regex.isOperator c

/-- Whether the label lists symbols and `ε` only, so that it is no regular expression. -/
def isPlain (l : Label) (alphabet : Option Alphabet) : Bool :=
  !l.tokens.isEmpty && l.tokens.all (isPlainToken alphabet)

@[simp] theorem symbols_epsilon : epsilon.symbols = [] := by decide +kernel

@[simp] theorem hasEpsilon_epsilon : epsilon.hasEpsilon = true := by decide +kernel

theorem mem_symbols (l : Label) (c : Char) :
    c ∈ l.symbols ↔ ∃ token ∈ l.tokens, symbolOf? token = some c := by
  simp [symbols, List.mem_filterMap]

end Label

end FiniteState
