import FiniteState.Alphabet

/-!
# Regular expressions

The trees of regular expressions over arbitrary characters. A sequence and a choice have
any number of parts, so the tree of a text keeps the text's own grouping.
-/

namespace FiniteState

/-- The character that stands for reading nothing. -/
def epsilonChar : Char := 'ε'

inductive Regex where
  /-- The expression of the empty text; no word matches it. -/
  | empty
  | char (c : Char)
  /-- All the parts, one after the other. -/
  | concat (parts : List Regex)
  /-- Any one of the parts. -/
  | alt (parts : List Regex)
  /-- Any number of repetitions. -/
  | many (body : Regex)
  /-- At least one repetition. -/
  | many1 (body : Regex)
deriving Inhabited

namespace Regex

/-- The characters with a meaning of their own in the text of an expression. -/
def isOperator (c : Char) : Bool :=
  c == '*' || c == '+' || c == '|' || c == '(' || c == ')'

mutual

def same : Regex → Regex → Bool
  | .empty, .empty => true
  | .char c, .char d => c == d
  | .concat rs, .concat ss => sameAll rs ss
  | .alt rs, .alt ss => sameAll rs ss
  | .many r, .many s => same r s
  | .many1 r, .many1 s => same r s
  | _, _ => false

/-- Whether two lists of expressions are the same, part by part. -/
def sameAll : List Regex → List Regex → Bool
  | [], [] => true
  | r :: rs, s :: ss => same r s && sameAll rs ss
  | _, _ => false

end

mutual

theorem eq_of_same : ∀ (r s : Regex), same r s = true → r = s
  | .empty, s, h => by cases s <;> simp_all [same]
  | .char c, s, h => by cases s <;> simp_all [same]
  | .concat rs, s, h => by
      cases s with
      | concat ss => exact congrArg _ (eq_of_sameAll rs ss (by simpa [same] using h))
      | _ => simp [same] at h
  | .alt rs, s, h => by
      cases s with
      | alt ss => exact congrArg _ (eq_of_sameAll rs ss (by simpa [same] using h))
      | _ => simp [same] at h
  | .many r, s, h => by
      cases s with
      | many t => exact congrArg _ (eq_of_same r t (by simpa [same] using h))
      | _ => simp [same] at h
  | .many1 r, s, h => by
      cases s with
      | many1 t => exact congrArg _ (eq_of_same r t (by simpa [same] using h))
      | _ => simp [same] at h

theorem eq_of_sameAll : ∀ (rs ss : List Regex), sameAll rs ss = true → rs = ss
  | [], ss, h => by cases ss <;> simp_all [sameAll]
  | r :: rs, ss, h => by
      cases ss with
      | nil => simp [sameAll] at h
      | cons s ss =>
          have h' : same r s = true ∧ sameAll rs ss = true := by simpa [sameAll] using h
          rw [eq_of_same r s h'.1, eq_of_sameAll rs ss h'.2]

end

mutual

theorem same_self : ∀ r : Regex, same r r = true
  | .empty => rfl
  | .char c => by simp [same]
  | .concat rs => by simpa [same] using sameAll_self rs
  | .alt rs => by simpa [same] using sameAll_self rs
  | .many r => by simpa [same] using same_self r
  | .many1 r => by simpa [same] using same_self r

theorem sameAll_self : ∀ rs : List Regex, sameAll rs rs = true
  | [] => rfl
  | r :: rs => by simp [sameAll, same_self r, sameAll_self rs]

end

instance : DecidableEq Regex := fun r s =>
  if h : same r s = true then isTrue (eq_of_same r s h)
  else isFalse fun he => h (he ▸ same_self r)

/-- A sequence, which is its part if it has just one. -/
def sequence : List Regex → Regex
  | [part] => part
  | parts => .concat parts

/-- A choice, which is its part if it has just one. -/
def choice : List Regex → Regex
  | [part] => part
  | parts => .alt parts

@[simp] theorem sequence_singleton (r : Regex) : sequence [r] = r := rfl

@[simp] theorem choice_singleton (r : Regex) : choice [r] = r := rfl

/-- Several parts in a row are a sequence. -/
theorem sequence_of_two_le (parts : List Regex) (h : 2 ≤ parts.length) :
    sequence parts = .concat parts := by
  match parts, h with
  | _ :: _ :: _, _ => rfl

/-- Several alternatives are a choice. -/
theorem choice_of_two_le (parts : List Regex) (h : 2 ≤ parts.length) :
    choice parts = .alt parts := by
  match parts, h with
  | _ :: _ :: _, _ => rfl

mutual

/-- The literals of an expression from left to right. -/
def literals : Regex → List Char
  | .empty => []
  | .char c => [c]
  | .concat parts => literalsAll parts
  | .alt parts => literalsAll parts
  | .many body => literals body
  | .many1 body => literals body

/-- The literals of a list of expressions from left to right. -/
def literalsAll : List Regex → List Char
  | [] => []
  | r :: rs => literals r ++ literalsAll rs

end

/-- The set of the literals of an expression. -/
def symbols (r : Regex) : Alphabet := Alphabet.ofList r.literals

theorem mem_symbols (r : Regex) (c : Char) : c ∈ r.symbols ↔ c ∈ r.literals :=
  Alphabet.mem_ofList r.literals c

end Regex

end FiniteState
