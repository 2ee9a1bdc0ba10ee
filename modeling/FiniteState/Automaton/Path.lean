import Mathlib.Computability.Language
import FiniteState.Automaton.Basic

/-!
# Paths

What an automaton accepts, told by its single runs: a path follows transitions one after
the other and reads a piece of the word on each. Which pieces a label lets through is a
parameter, as the same graph may be labelled with symbols or with expressions. Only
transitions between existing states are followed.
-/

namespace FiniteState

/-- The pieces that a label of symbols lets through: its symbols as words of one
character, and the empty word if it holds `ε`. -/
def Label.pieces (l : Label) : Language Char :=
  {v | (v = [] ∧ epsilonToken ∈ l.tokens) ∨
    ∃ c, v = [c] ∧ c ≠ epsilonChar ∧ String.singleton c ∈ l.tokens}

namespace Automaton

/-- Paths from one state to another, which the word between them leads along. -/
inductive Path (a : Automaton) (pieces : Label → Language Char) :
    String → List Char → String → Prop
  | nil (name : String) : Path a pieces name [] name
  | cons {t : Transition} {v w : List Char} {last : String} (ht : t ∈ a.transitions)
      (hsource : t.source ∈ a.names) (htarget : t.target ∈ a.names)
      (hv : v ∈ pieces t.label) (hw : Path a pieces t.target w last) :
      Path a pieces t.source (v ++ w) last

/-- The words that lead along a path from a start state to an accepting state. -/
def languageOver (a : Automaton) (pieces : Label → Language Char) : Language Char :=
  {w | ∃ p ∈ a.starts, ∃ q ∈ a.acceptings, Path a pieces p.name w q.name}

/-- The words that an automaton with labels of symbols accepts. -/
def language (a : Automaton) : Language Char := a.languageOver Label.pieces

theorem mem_languageOver (a : Automaton) (pieces : Label → Language Char)
    (w : List Char) :
    w ∈ a.languageOver pieces ↔
      ∃ p ∈ a.starts, ∃ q ∈ a.acceptings, Path a pieces p.name w q.name :=
  Iff.rfl

namespace Path

variable {a : Automaton} {pieces : Label → Language Char} {p q r : String}

/-- Two paths that meet make one path. -/
theorem append {v w : List Char} (hv : Path a pieces p v q) (hw : Path a pieces q w r) :
    Path a pieces p (v ++ w) r := by
  induction hv with
  | nil => exact hw
  | cons ht hs ht' hp _ ih =>
      rw [List.append_assoc]
      exact .cons ht hs ht' hp (ih hw)

/-- A path from an existing state leads to an existing state. -/
theorem mem_names {w : List Char} (h : Path a pieces p w q) (hp : p ∈ a.names) :
    q ∈ a.names := by
  induction h with
  | nil => exact hp
  | cons _ _ htarget _ _ ih => exact ih htarget

/-- More pieces leave all paths as they are. -/
theorem mono {pieces' : Label → Language Char}
    (hle : ∀ t ∈ a.transitions, ∀ v ∈ pieces t.label, v ∈ pieces' t.label)
    {w : List Char} (h : Path a pieces p w q) : Path a pieces' p w q := by
  induction h with
  | nil name => exact .nil name
  | cons ht hs ht' hp _ ih => exact .cons ht hs ht' (hle _ ht _ hp) ih

end Path

end Automaton

end FiniteState
