import FiniteState.Regex.Basic

/-!
# The grammar of regular expressions

Which texts are regular expressions, and of which trees, without regard to how a text is
read. A choice is one sequence or several with bars between them; a sequence is one operand
or several in a row; an operand is a literal or a choice in parentheses, followed by any
number of repetition signs. The tree of a derivation has a node for every choice and
every sequence, also for those of one part.
-/

namespace FiniteState.Regex

mutual

/-- The texts of a choice between the given parts. -/
inductive ChoiceText : List Char → List Regex → Prop
  | one {s : List Char} {parts : List Regex} (h : SequenceText s parts) :
      ChoiceText s [.concat parts]
  | cons {s t : List Char} {parts choices : List Regex} (h : SequenceText s parts)
      (ht : ChoiceText t choices) : ChoiceText (s ++ '|' :: t) (.concat parts :: choices)

/-- The texts of a sequence of the given parts. -/
inductive SequenceText : List Char → List Regex → Prop
  | one {s : List Char} {r : Regex} (h : OperandText s r) : SequenceText s [r]
  | cons {s t : List Char} {r : Regex} {parts : List Regex} (h : OperandText s r)
      (ht : SequenceText t parts) : SequenceText (s ++ t) (r :: parts)

/-- The texts of an operand. -/
inductive OperandText : List Char → Regex → Prop
  | char (c : Char) (hc : isOperator c = false) : OperandText [c] (.char c)
  | group {s : List Char} {choices : List Regex} (h : ChoiceText s choices) :
      OperandText ('(' :: (s ++ [')'])) (.alt choices)
  | many {s : List Char} {r : Regex} (h : OperandText s r) :
      OperandText (s ++ ['*']) (.many r)
  | many1 {s : List Char} {r : Regex} (h : OperandText s r) :
      OperandText (s ++ ['+']) (.many1 r)

end

/-- A text together with the tree of a derivation of it. -/
inductive Derives : List Char → Regex → Prop
  | intro {s : List Char} {choices : List Regex} (h : ChoiceText s choices) :
      Derives s (.alt choices)

/-- No operand has an empty text. -/
theorem OperandText.ne_nil {s : List Char} {r : Regex} (h : OperandText s r) : s ≠ [] := by
  cases h <;> simp

/-- No sequence has an empty text. -/
theorem SequenceText.ne_nil {s : List Char} {parts : List Regex}
    (h : SequenceText s parts) : s ≠ [] := by
  cases h with
  | one h => exact h.ne_nil
  | cons h _ => simp [h.ne_nil]

/-- No choice has an empty text. -/
theorem ChoiceText.ne_nil {s : List Char} {choices : List Regex}
    (h : ChoiceText s choices) : s ≠ [] := by
  cases h with
  | one h => exact h.ne_nil
  | cons h _ => simp

/-- The empty text has no derivation. -/
theorem Derives.ne_nil {s : List Char} {r : Regex} (h : Derives s r) : s ≠ [] := by
  cases h with
  | intro h => exact h.ne_nil

/-- A text of a sequence stands for no empty sequence. -/
theorem SequenceText.parts_ne_nil {s : List Char} {parts : List Regex}
    (h : SequenceText s parts) : parts ≠ [] := by
  cases h <;> simp

/-- Two texts of sequences one after the other are the text of a sequence. -/
theorem SequenceText.append {s t : List Char} {ps qs : List Regex}
    (hs : SequenceText s ps) (ht : SequenceText t qs) :
    SequenceText (s ++ t) (ps ++ qs) := by
  induction ps generalizing s with
  | nil => exact absurd rfl hs.parts_ne_nil
  | cons p ps ih =>
      cases hs with
      | one h => exact .cons h ht
      | cons h hrest =>
          rw [List.append_assoc]
          exact .cons h (ih hrest)

end FiniteState.Regex
