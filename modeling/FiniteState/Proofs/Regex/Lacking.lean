import FiniteState.Proofs.Regex.Parens

/-!
# Operands that are lacking

A sign of repetition needs an operand before it, a bar needs one on either side, and parentheses
need one between them. `Lacking` says that one of these stands in the middle of a text and has no
such operand, which can be seen from the characters next to it. `Derives.balanced_supplied` says
that this happens nowhere in an expression.

A part of an expression is looked at as if it were the whole text. That is the worst that can be
before it and behind it, so what is lacking in the whole at a place in the part is lacking in the
part alone.
-/

namespace FiniteState.Regex

/-- There is no operand at the end of the text. -/
def Vacant (s : List Char) : Prop := s = [] ∨ ∃ t c, s = t ++ [c] ∧ (c = '(' ∨ c = '|')

/-- The text in the middle needs an operand on its left, on its right or inside, and has none. -/
inductive Lacking (before middle after : List Char) : Prop
  | sign (hmiddle : middle = ['*'] ∨ middle = ['+']) (h : Vacant before)
  | barBehind (hmiddle : middle = ['|']) (h : Vacant before)
  | barBefore (hmiddle : middle = ['|']) (h : after = [] ∨ after.head? = some ')')
  | group (hmiddle : middle = ['(', ')'])

/-- Nowhere in the text an operand is lacking. -/
def Supplied (s : List Char) : Prop :=
  ∀ before middle after, s = before ++ (middle ++ after) → ¬ Lacking before middle after

section

variable {s t : List Char}

theorem Vacant.concat_iff {c : Char} : Vacant (s ++ [c]) ↔ c = '(' ∨ c = '|' := by
  constructor
  · rintro (hnil | ⟨u, d, hsplit, hd⟩)
    · simp at hnil
    · obtain ⟨-, hc⟩ := List.append_inj' hsplit rfl
      rwa [List.singleton_inj.1 hc]
  · exact fun hc => .inr ⟨s, c, rfl, hc⟩

theorem Vacant.of_append (h : Vacant (s ++ t)) : Vacant t := by
  rcases List.eq_nil_or_concat t with rfl | ⟨t, c, rfl⟩
  · exact .inl rfl
  · rw [List.concat_eq_append, ← List.append_assoc, concat_iff] at h
    rw [List.concat_eq_append, concat_iff]
    exact h

namespace Lacking

variable {before middle after : List Char}

/-- What is in the middle is an operator, or an opening parenthesis with the closing one. -/
theorem exists_cons (h : Lacking before middle after) : ∃ c rest, middle = c :: rest ∧
    isOperator c = true ∧ (rest = [] ∨ (c = '(' ∧ rest = [')'])) := by
  cases h with
  | sign hmiddle =>
      rcases hmiddle with rfl | rfl
      · exact ⟨'*', [], rfl, rfl, .inl rfl⟩
      · exact ⟨'+', [], rfl, rfl, .inl rfl⟩
  | barBehind hmiddle => exact ⟨'|', [], hmiddle, rfl, .inl rfl⟩
  | barBefore hmiddle => exact ⟨'|', [], hmiddle, rfl, .inl rfl⟩
  | group hmiddle => exact ⟨'(', [')'], hmiddle, rfl, .inr ⟨rfl, rfl⟩⟩

theorem of_append_left (h : Lacking (s ++ before) middle after) : Lacking before middle after := by
  cases h with
  | sign hmiddle h => exact .sign hmiddle h.of_append
  | barBehind hmiddle h => exact .barBehind hmiddle h.of_append
  | barBefore hmiddle h => exact .barBefore hmiddle h
  | group hmiddle => exact .group hmiddle

theorem of_append_right (h : Lacking before middle (after ++ s)) : Lacking before middle after := by
  cases h with
  | sign hmiddle h => exact .sign hmiddle h
  | barBehind hmiddle h => exact .barBehind hmiddle h
  | barBefore hmiddle h =>
      cases after with
      | nil => exact .barBefore hmiddle (.inl rfl)
      | cons c after => exact .barBefore hmiddle (by simpa using h)
  | group hmiddle => exact .group hmiddle

/-- No parenthesis alone needs an operand. -/
theorem ne_paren {c : Char} (h : Lacking before [c] after) : c ≠ '(' ∧ c ≠ ')' := by
  cases h with
  | sign hmiddle =>
      rcases hmiddle with hmiddle | hmiddle
      · rw [List.singleton_inj.1 hmiddle]
        decide
      · rw [List.singleton_inj.1 hmiddle]
        decide
  | barBehind hmiddle =>
      rw [List.singleton_inj.1 hmiddle]
      decide
  | barBefore hmiddle =>
      rw [List.singleton_inj.1 hmiddle]
      decide
  | group hmiddle => simp at hmiddle

end Lacking

/-! ## Texts without such places -/

theorem supplied_nil : Supplied [] := by
  intro before middle after hsplit h
  obtain ⟨c, rest, rfl, -⟩ := h.exists_cons
  simp at hsplit

/-- What begins in the first of two texts and lacks an operand goes on in the second: it is a pair
of empty parentheses. -/
theorem Supplied.ends_of_lacking {before rest after u : List Char} {c : Char} (hs : Supplied s)
    (h : Lacking before (c :: rest) after) (hu : s = before ++ c :: u)
    (hafter : rest ++ after = u ++ t) : Vacant s ∧ t.head? = some ')' := by
  obtain ⟨d, rest', hmiddle, -, hrest⟩ := h.exists_cons
  obtain ⟨rfl, rfl⟩ := List.cons.inj hmiddle
  rcases hrest with rfl | ⟨rfl, rfl⟩
  · rw [List.nil_append] at hafter
    subst hafter
    exact absurd h.of_append_right (hs before [c] u hu)
  · cases u with
    | nil =>
        rw [List.nil_append] at hafter
        exact ⟨hu ▸ Vacant.concat_iff.2 (.inl rfl), hafter ▸ rfl⟩
    | cons d u =>
        obtain ⟨rfl, rfl⟩ := List.cons.inj hafter
        exact absurd (.group rfl) (hs before ['(', ')'] u hu)

/-- Two texts one after the other, unless empty parentheses come of it. -/
theorem Supplied.append (hs : Supplied s) (ht : Supplied t) (hhead : t.head? ≠ some ')') :
    Supplied (s ++ t) := by
  intro before middle after hsplit h
  obtain ⟨c, rest, rfl, -⟩ := h.exists_cons
  rw [List.cons_append] at hsplit
  rcases append_eq_append_cons hsplit with ⟨u, hu, hafter⟩ | ⟨u, rfl, hu⟩
  · exact hhead (hs.ends_of_lacking h hu hafter).2
  · exact ht u (c :: rest) after hu h.of_append_left

/-- Two texts with a character between them that lacks no operand. -/
theorem Supplied.link {c : Char} (hs : Supplied s) (ht : Supplied t) (hlink : ¬ Lacking s [c] t)
    (hclose : c = ')' → ¬ Vacant s) (hopen : c = '(' → t.head? ≠ some ')') :
    Supplied (s ++ c :: t) := by
  intro before middle after hsplit h
  obtain ⟨d, rest, rfl, -, hrest⟩ := h.exists_cons
  rw [List.cons_append] at hsplit
  rcases append_eq_append_cons hsplit with ⟨u, hu, hafter⟩ | ⟨u, rfl, hu⟩
  · obtain ⟨hvacant, hc⟩ := hs.ends_of_lacking h hu hafter
    exact hclose (Option.some.inj hc) hvacant
  · cases u with
    | nil =>
        obtain ⟨rfl, rfl⟩ := List.cons.inj hu
        rcases hrest with rfl | ⟨rfl, rfl⟩
        · rw [List.append_nil] at h
          exact hlink h
        · exact hopen rfl rfl
    | cons e u =>
        obtain ⟨rfl, ht'⟩ := List.cons.inj hu
        rw [List.append_cons] at h
        exact ht u (d :: rest) after ht' h.of_append_left

end

/-- A text that ends in an operand, lacks none and does not begin by closing a parenthesis. -/
structure Whole (s : List Char) : Prop where
  not_vacant : ¬ Vacant s
  not_closing : s.head? ≠ some ')'
  supplied : Supplied s

namespace Whole

variable {s t : List Char}

theorem ne_nil (h : Whole s) : s ≠ [] := by
  rintro rfl
  exact h.not_vacant (.inl rfl)

theorem head?_append (h : Whole s) (t : List Char) : (s ++ t).head? ≠ some ')' := by
  cases s with
  | nil => exact absurd rfl h.ne_nil
  | cons c s => exact h.not_closing

theorem char {c : Char} (hc : isOperator c = false) : Whole [c] := by
  obtain ⟨hopen, hclose, -, -, hbar⟩ := ne_of_isOperator_eq_false hc
  refine ⟨?_, fun h => hclose (Option.some.inj h), ?_⟩
  · rw [← List.nil_append [c], Vacant.concat_iff, not_or]
    exact ⟨hopen, hbar⟩
  · refine supplied_nil.link supplied_nil ?_ (absurd · hclose) (absurd · hopen)
    intro h
    obtain ⟨d, rest, hd, hoperator, -⟩ := h.exists_cons
    obtain ⟨rfl, -⟩ := List.cons.inj hd
    rw [hc] at hoperator
    cases hoperator

theorem append (hs : Whole s) (ht : Whole t) : Whole (s ++ t) where
  not_vacant h := ht.not_vacant h.of_append
  not_closing := hs.head?_append t
  supplied := hs.supplied.append ht.supplied ht.not_closing

theorem sign (hs : Whole s) {c : Char} (hc : c = '*' ∨ c = '+') : Whole (s ++ [c]) := by
  have hne : c ≠ '(' ∧ c ≠ ')' ∧ c ≠ '|' := by
    rcases hc with rfl | rfl
    · decide
    · decide
  obtain ⟨hopen, hclose, hbar⟩ := hne
  refine ⟨?_, hs.head?_append [c], ?_⟩
  · rw [Vacant.concat_iff, not_or]
    exact ⟨hopen, hbar⟩
  · refine hs.supplied.link supplied_nil ?_ (absurd · hclose) (absurd · hopen)
    rintro (⟨-, h⟩ | ⟨-, h⟩ | ⟨hmiddle, -⟩ | hmiddle)
    · exact hs.not_vacant h
    · exact hs.not_vacant h
    · exact hbar (List.singleton_inj.1 hmiddle)
    · simp at hmiddle

theorem bar (hs : Whole s) (ht : Whole t) : Whole (s ++ '|' :: t) where
  not_vacant h := by
    rw [List.append_cons] at h
    exact ht.not_vacant h.of_append
  not_closing := hs.head?_append ('|' :: t)
  supplied := by
    refine hs.supplied.link ht.supplied ?_ (by simp) (by simp)
    rintro (⟨-, h⟩ | ⟨-, h⟩ | ⟨-, h | h⟩ | hmiddle)
    · exact hs.not_vacant h
    · exact hs.not_vacant h
    · exact ht.ne_nil h
    · exact ht.not_closing h
    · simp at hmiddle

theorem group (hs : Whole s) : Whole ('(' :: (s ++ [')'])) where
  not_vacant h := by
    rw [← List.cons_append, Vacant.concat_iff] at h
    exact absurd h (by decide)
  not_closing := by simp
  supplied := by
    have hclose : Supplied (s ++ [')']) :=
      hs.supplied.link supplied_nil (fun h => h.ne_paren.2 rfl) (fun _ => hs.not_vacant) (by simp)
    exact supplied_nil.link hclose (fun h => h.ne_paren.1 rfl) (by simp)
      fun _ => hs.head?_append [')']

end Whole

/-! ## Expressions -/

mutual

theorem ChoiceText.whole : ∀ {s : List Char} {choices : List Regex},
    ChoiceText s choices → Whole s
  | _, _, .one h => h.whole
  | _, _, .cons h ht => h.whole.bar ht.whole

theorem SequenceText.whole : ∀ {s : List Char} {parts : List Regex},
    SequenceText s parts → Whole s
  | _, _, .one h => h.whole
  | _, _, .cons h ht => h.whole.append ht.whole

theorem OperandText.whole : ∀ {s : List Char} {r : Regex}, OperandText s r → Whole s
  | _, _, .char _ hc => .char hc
  | _, _, .group h => h.whole.group
  | _, _, .many h => h.whole.sign (.inl rfl)
  | _, _, .many1 h => h.whole.sign (.inr rfl)

end

/-- The parentheses of an expression match, and it lacks no operand. -/
theorem Derives.balanced_supplied {s : List Char} {r : Regex} (h : Derives s r) :
    Balanced s ∧ Supplied s := by
  obtain ⟨h⟩ := h
  exact ⟨h.balanced, h.whole.supplied⟩

end FiniteState.Regex
