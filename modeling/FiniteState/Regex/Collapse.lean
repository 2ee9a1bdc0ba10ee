import FiniteState.Regex.Basic

/-!
# Trees without superfluous nodes

A sequence or a choice of one part says no more than the part. Collapsing a tree takes
all such nodes out of it, from the bottom up; what is left is the tree that the text of
the expression stands for.
-/

namespace FiniteState.Regex

/-- Trees of literals that are no operators, in which every sequence and every choice has
at least `n` parts. With `n = 1` these are the trees that have a text of their own, and
with `n = 2` those that are also free of superfluous nodes. -/
inductive Proper (n : Nat) : Regex → Prop
  | char (c : Char) (hc : isOperator c = false) : Proper n (.char c)
  | concat (parts : List Regex) (hlen : n ≤ parts.length)
      (h : ∀ r ∈ parts, Proper n r) : Proper n (.concat parts)
  | alt (parts : List Regex) (hlen : n ≤ parts.length)
      (h : ∀ r ∈ parts, Proper n r) : Proper n (.alt parts)
  | many (body : Regex) (h : Proper n body) : Proper n (.many body)
  | many1 (body : Regex) (h : Proper n body) : Proper n (.many1 body)

mutual

/-- The tree in which every sequence or choice of one part is replaced by the part. -/
def collapse : Regex → Regex
  | .empty => .empty
  | .char c => .char c
  | .concat parts => sequence (collapseAll parts)
  | .alt parts => choice (collapseAll parts)
  | .many body => .many (collapse body)
  | .many1 body => .many1 (collapse body)

/-- The collapsed trees of a list. -/
def collapseAll : List Regex → List Regex
  | [] => []
  | part :: parts => collapse part :: collapseAll parts

end

theorem collapseAll_eq_map (parts : List Regex) : collapseAll parts = parts.map collapse := by
  induction parts with
  | nil => rfl
  | cons part parts ih => simp [collapseAll, ih]

theorem collapse_concat (parts : List Regex) :
    collapse (.concat parts) = sequence (parts.map collapse) := by
  rw [collapse, collapseAll_eq_map]

theorem collapse_alt (parts : List Regex) :
    collapse (.alt parts) = choice (parts.map collapse) := by
  rw [collapse, collapseAll_eq_map]

/-- Fewer parts may be asked for. -/
theorem Proper.mono {m n : Nat} (hmn : m ≤ n) {r : Regex} (h : Proper n r) :
    Proper m r := by
  induction h with
  | char c hc => exact .char c hc
  | concat parts hlen _ ih => exact .concat parts (Nat.le_trans hmn hlen) ih
  | alt parts hlen _ ih => exact .alt parts (Nat.le_trans hmn hlen) ih
  | many body _ ih => exact .many body ih
  | many1 body _ ih => exact .many1 body ih

theorem proper_sequence {parts : List Regex} (hlen : 1 ≤ parts.length)
    (h : ∀ r ∈ parts, Proper 2 r) : Proper 2 (sequence parts) := by
  match parts, hlen with
  | [r], _ => exact h r List.mem_cons_self
  | r :: s :: rest, _ => exact .concat _ (by simp) h

theorem proper_choice {parts : List Regex} (hlen : 1 ≤ parts.length)
    (h : ∀ r ∈ parts, Proper 2 r) : Proper 2 (choice parts) := by
  match parts, hlen with
  | [r], _ => exact h r List.mem_cons_self
  | r :: s :: rest, _ => exact .alt _ (by simp) h

/-- A collapsed tree has no superfluous nodes. -/
theorem proper_collapse {r : Regex} (h : Proper 1 r) : Proper 2 r.collapse := by
  induction h with
  | char c hc => exact .char c hc
  | concat parts hlen _ ih =>
      rw [collapse_concat]
      exact proper_sequence (by simpa using hlen) (by simpa using ih)
  | alt parts hlen _ ih =>
      rw [collapse_alt]
      exact proper_choice (by simpa using hlen) (by simpa using ih)
  | many body _ ih => exact .many _ ih
  | many1 body _ ih => exact .many1 _ ih

/-- A tree without superfluous nodes is left as it is. -/
theorem collapse_eq_self {r : Regex} (h : Proper 2 r) : r.collapse = r := by
  induction h with
  | char c hc => rfl
  | concat parts hlen _ ih =>
      rw [collapse_concat, List.map_congr_left ih, List.map_id', sequence_of_two_le _ hlen]
  | alt parts hlen _ ih =>
      rw [collapse_alt, List.map_congr_left ih, List.map_id', choice_of_two_le _ hlen]
  | many body _ ih => rw [collapse, ih]
  | many1 body _ ih => rw [collapse, ih]

end FiniteState.Regex
