/-!
# Parts of a text

A text is cut at every place where a separator stands. There is always one part more than
there are separators, so no two texts have the same parts.
-/

namespace FiniteState.Text

/-- The parts of a text between its separators. -/
def split (separator : Char) : List Char → List (List Char)
  | [] => [[]]
  | c :: cs =>
      match split separator cs with
      | [] => [[c]]
      | part :: parts =>
          if c = separator then [] :: part :: parts else (c :: part) :: parts

theorem split_ne_nil (separator : Char) (cs : List Char) : split separator cs ≠ [] := by
  cases cs with
  | nil => simp [split]
  | cons c cs =>
      rw [split]
      split
      · simp
      · split <;> simp

/-- A separator ends a part. -/
theorem split_cons_self (separator : Char) (cs : List Char) :
    split separator (separator :: cs) = [] :: split separator cs := by
  rw [split]
  cases h : split separator cs with
  | nil => exact absurd h (split_ne_nil separator cs)
  | cons part parts => simp

/-- No part holds a separator. -/
theorem not_mem_of_mem_split (separator : Char) (cs part : List Char)
    (h : part ∈ split separator cs) : ¬ separator ∈ part := by
  induction cs generalizing part with
  | nil =>
      rw [split, List.mem_singleton] at h
      simp [h]
  | cons c cs ih =>
      rw [split] at h
      cases hs : split separator cs with
      | nil => exact absurd hs (split_ne_nil separator cs)
      | cons first parts =>
          simp only [hs] at h ih
          split at h
          · rcases List.mem_cons.1 h with rfl | h
            · simp
            · exact ih part h
          · next hc =>
              rcases List.mem_cons.1 h with rfl | h
              · have hfirst := ih first List.mem_cons_self
                rw [List.mem_cons, not_or]
                exact ⟨fun he => hc he.symm, hfirst⟩
              · exact ih part (List.mem_cons_of_mem first h)

/-- A text without separators is one part. -/
theorem split_eq_singleton (separator : Char) (cs : List Char) (h : ¬ separator ∈ cs) :
    split separator cs = [cs] := by
  induction cs with
  | nil => rfl
  | cons c cs ih =>
      rw [List.mem_cons, not_or] at h
      have hne : ¬ c = separator := fun he => h.1 he.symm
      simp [split, ih h.2, hne]

end FiniteState.Text
