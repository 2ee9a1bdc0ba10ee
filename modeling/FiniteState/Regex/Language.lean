import Mathlib.Computability.Language
import FiniteState.Regex.Basic

/-!
# The language of a regular expression

The words that match an expression. The literal `ε` matches the empty word only, every
other literal itself. An expression without parts, be it empty, a sequence or a choice,
matches no word at all.
-/

namespace FiniteState.Regex

open scoped Computability

mutual

/-- The words that match an expression. -/
def language : Regex → Language Char
  | .empty => 0
  | .char c => if c = epsilonChar then 1 else {[c]}
  | .concat parts => languageInTurn parts
  | .alt parts => languageOfAny parts
  | .many body => (language body)∗
  | .many1 body => language body * (language body)∗

/-- The words that match expressions one after the other, of which there is at least
one. -/
def languageInTurn : List Regex → Language Char
  | [] => 0
  | [part] => language part
  | part :: next :: parts => language part * languageInTurn (next :: parts)

/-- The words that match some expression of a list. -/
def languageOfAny : List Regex → Language Char
  | [] => 0
  | part :: parts => language part + languageOfAny parts

end

@[simp] theorem languageInTurn_singleton (r : Regex) :
    languageInTurn [r] = r.language := by
  simp [languageInTurn]

/-- A word of a sequence begins with a word of its first part. -/
theorem languageInTurn_cons (r : Regex) (rs : List Regex) (h : rs ≠ []) :
    languageInTurn (r :: rs) = r.language * languageInTurn rs := by
  cases rs with
  | nil => exact absurd rfl h
  | cons s rs => rw [languageInTurn]

@[simp] theorem languageOfAny_nil : languageOfAny [] = 0 := by simp [languageOfAny]

@[simp] theorem languageOfAny_cons (r : Regex) (rs : List Regex) :
    languageOfAny (r :: rs) = r.language + languageOfAny rs := by
  rw [languageOfAny]

/-- A choice matches what one of its parts matches. -/
theorem mem_languageOfAny (rs : List Regex) (w : List Char) :
    w ∈ languageOfAny rs ↔ ∃ r ∈ rs, w ∈ r.language := by
  induction rs with
  | nil => simp [Language.notMem_zero]
  | cons r rs ih =>
      rw [languageOfAny_cons, Language.mem_add, ih]
      simp

end FiniteState.Regex
