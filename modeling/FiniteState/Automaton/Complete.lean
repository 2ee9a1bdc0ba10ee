import FiniteState.Automaton.Basic

/-!
# What completeness means

An automaton is complete and deterministic over an alphabet if a word over the alphabet
can be read in exactly one way. Here this is said of its states and transitions, without
regard to the order in which they are looked at.
-/

namespace FiniteState.Automaton

/-- Whether a token is one character that is read. -/
def IsSymbolToken (token : String) : Prop :=
  ∃ c, c ≠ epsilonChar ∧ token = String.singleton c

/-- The tokens on the transitions that leave a state. -/
def leavingTokens (a : Automaton) (name : String) : List String :=
  (a.outgoing name).flatMap fun t => t.label.tokens

/-- The automaton is complete and deterministic over `S`. -/
structure IsComplete (a : Automaton) (S : Alphabet) : Prop where
  start : a.starts.length = 1
  ends : ∀ t ∈ a.transitions, t.source ∈ a.names ∧ t.target ∈ a.names
  /-- There is something on each label. -/
  tokens_ne_nil : ∀ t ∈ a.transitions, t.label.tokens ≠ []
  /-- All that is on a label is read. -/
  isSymbolToken : ∀ t ∈ a.transitions, ∀ token ∈ t.label.tokens, IsSymbolToken token
  /-- A state can be left on each symbol of the alphabet in one way, and on no other
  symbol. -/
  count_leaving : ∀ name ∈ a.names, ∀ c,
    (a.leavingTokens name).count (String.singleton c) = if c ∈ S then 1 else 0
  /-- There is something to read. -/
  transitions_ne_nil : a.transitions ≠ []

end FiniteState.Automaton
