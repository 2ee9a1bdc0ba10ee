import FiniteState.Proofs.Regex.Grammar

/-!
# Parentheses without a match

A text may close more parentheses than it has opened, or leave some open at its end. What the
check of the parentheses finds is told without it: `Overclosed` counts, and `Closed` looks for the
balanced text between a parenthesis and its match. The texts that the check has gone through are
`OpenText`, balanced texts one after the other with an open parenthesis before each but the first,
and `checkParens_outcome` says what comes of the whole text.
-/

namespace FiniteState.Regex

/-- Somewhere more parentheses have been closed than opened. -/
def Overclosed (s : List Char) : Prop := ∃ u, u <+: s ∧ u.count '(' < u.count ')'

/-- A parenthesis before the text is closed in it. -/
def Closed (s : List Char) : Prop := ∃ inside rest, Balanced inside ∧ s = inside ++ ')' :: rest

section

variable {s t : List Char}

theorem Overclosed.append (h : Overclosed s) (t : List Char) : Overclosed (s ++ t) := by
  obtain ⟨u, hu, hcount⟩ := h
  exact ⟨u, hu.trans (List.prefix_append s t), hcount⟩

/-- If a text is not overclosed at its end, then before or behind that. -/
theorem Overclosed.of_append (h : Overclosed (s ++ t)) (hs : s.count ')' ≤ s.count '(') :
    Overclosed s ∨ Overclosed t := by
  obtain ⟨u, ⟨w, hw⟩, hcount⟩ := h
  rcases List.append_eq_append_iff.1 hw with ⟨rest, rfl, -⟩ | ⟨v, rfl, rfl⟩
  · exact .inl ⟨u, List.prefix_append u rest, hcount⟩
  · refine .inr ⟨v, List.prefix_append v w, ?_⟩
    rw [List.count_append, List.count_append] at hcount
    omega

theorem not_overclosed_open (h : ¬ Overclosed s) : ¬ Overclosed ('(' :: s) := by
  intro hopen
  rcases Overclosed.of_append (s := ['(']) hopen (by decide) with ⟨u, hu, hcount⟩ | hs
  · have hclose := hu.sublist.count_le ')'
    rw [show ['('].count ')' = 0 by decide] at hclose
    omega
  · exact h hs

theorem not_overclosed_concat {c : Char} (h : ¬ Overclosed s)
    (hcount : (s ++ [c]).count ')' ≤ (s ++ [c]).count '(') : ¬ Overclosed (s ++ [c]) := by
  rintro ⟨u, hu, hu'⟩
  rcases List.prefix_concat_iff.1 hu with rfl | hu
  · omega
  · exact h ⟨u, hu, hu'⟩

theorem Closed.append (h : Closed s) (t : List Char) : Closed (s ++ t) := by
  obtain ⟨inside, rest, hinside, rfl⟩ := h
  exact ⟨inside, rest ++ t, hinside, by rw [List.append_assoc, List.cons_append]⟩

/-- A place in one of two texts is in the first or in the second. -/
theorem append_eq_append_cons {c : Char} {before after : List Char}
    (h : s ++ t = before ++ c :: after) :
    (∃ rest, s = before ++ c :: rest ∧ after = rest ++ t) ∨
      ∃ rest, before = s ++ rest ∧ t = rest ++ c :: after := by
  rcases List.append_eq_append_iff.1 h with ⟨rest, hbefore, ht⟩ | ⟨rest, hs, hafter⟩
  · exact .inr ⟨rest, hbefore, ht⟩
  · cases rest with
    | nil => exact .inr ⟨[], by simpa using hs.symm, by simpa using hafter.symm⟩
    | cons d rest =>
        obtain ⟨rfl, rfl⟩ := List.cons.inj hafter
        exact .inl ⟨rest, hs, rfl⟩

end

/-! ## Balanced texts -/

namespace Balanced

variable {s : List Char}

theorem count_eq (h : Balanced s) : s.count '(' = s.count ')' := by
  induction h with
  | nil => rfl
  | char c hopen hclose => simp [hopen, hclose]
  | append _ _ ihs iht => rw [List.count_append, List.count_append, ihs, iht]
  | group _ ih => simp [ih]

theorem not_overclosed (h : Balanced s) : ¬ Overclosed s := by
  induction h with
  | nil =>
      rintro ⟨u, hu, hcount⟩
      rw [List.prefix_nil.1 hu] at hcount
      exact Nat.lt_irrefl _ hcount
  | char c hopen hclose =>
      rintro ⟨u, hu, hcount⟩
      have hle := hu.sublist.count_le ')'
      simp [hclose] at hle
      omega
  | append hs ht ihs iht =>
      intro h
      rcases h.of_append (Nat.le_of_eq hs.count_eq.symm) with h | h
      · exact ihs h
      · exact iht h
  | group hs ih =>
      exact not_overclosed_concat (not_overclosed_open ih) (Nat.le_of_eq hs.group.count_eq.symm)

/-- Every parenthesis that a balanced text opens is closed in it. -/
theorem closed (h : Balanced s) {before after : List Char} (hsplit : s = before ++ '(' :: after) :
    Closed after := by
  induction h generalizing before after with
  | nil => simp at hsplit
  | char c hopen hclose =>
      have hmem : '(' ∈ [c] := by simp [hsplit]
      exact absurd (List.mem_singleton.1 hmem).symm hopen
  | append _ _ ihs iht =>
      rcases append_eq_append_cons hsplit with ⟨rest, hs, rfl⟩ | ⟨rest, -, ht⟩
      · exact (ihs hs).append _
      · exact iht ht
  | @group s hs ih =>
      cases before with
      | nil =>
          obtain ⟨-, rfl⟩ := List.cons.inj hsplit
          exact ⟨s, [], hs, rfl⟩
      | cons c before =>
          obtain ⟨-, htail⟩ := List.cons.inj hsplit
          rcases append_eq_append_cons htail with ⟨rest, hs, rfl⟩ | ⟨rest, -, ht⟩
          · exact (ih hs).append _
          · have hmem : '(' ∈ [')'] := by simp [ht]
            exact absurd hmem (by decide)

/-- A parenthesis before a balanced text is not closed in it. -/
theorem not_closed (h : Balanced s) : ¬ Closed s := by
  rintro ⟨inside, rest, hinside, rfl⟩
  refine h.not_overclosed ⟨inside ++ [')'], ⟨rest, by simp⟩, ?_⟩
  simp [hinside.count_eq]

end Balanced

/-! ## The check -/

/-- A text in which the parentheses at the given offsets are still open, the last of them first. -/
inductive OpenText : List Char → List Nat → Prop
  | nil {s : List Char} (hs : Balanced s) : OpenText s []
  | cons {u s : List Char} {opened : List Nat} (hu : OpenText u opened) (hs : Balanced s) :
      OpenText (u ++ '(' :: s) (byteLength u :: opened)

namespace OpenText

variable {u s : List Char} {opened : List Nat}

theorem append (h : OpenText u opened) (hs : Balanced s) : OpenText (u ++ s) opened := by
  cases h with
  | nil hu => exact .nil (hu.append hs)
  | cons hu hu' =>
      rw [List.append_assoc, List.cons_append]
      exact .cons hu (hu'.append hs)

theorem close {start : Nat} (h : OpenText u (start :: opened)) : OpenText (u ++ [')']) opened := by
  cases h with
  | cons hu hs =>
      rw [List.append_assoc]
      exact hu.append hs.group

theorem count_eq (h : OpenText u opened) : u.count '(' = u.count ')' + opened.length := by
  induction h with
  | nil hs => exact hs.count_eq
  | cons _ hs ih =>
      simp [ih, hs.count_eq]
      omega

theorem not_overclosed (h : OpenText u opened) : ¬ Overclosed u := by
  induction h with
  | nil hs => exact hs.not_overclosed
  | cons hu hs ih =>
      intro h
      rcases h.of_append (by rw [hu.count_eq]; exact Nat.le_add_right _ _) with h | h
      · exact ih h
      · exact not_overclosed_open hs.not_overclosed h

/-- The last parenthesis that is open is not closed behind it, and all others behind it are. -/
theorem exists_last {start : Nat} (h : OpenText u (start :: opened)) :
    ∃ before after, u = before ++ '(' :: after ∧ start = byteLength before ∧ ¬ Closed after ∧
      ∀ v w, after = v ++ '(' :: w → Closed w := by
  cases h with
  | @cons before after _ hbefore hafter =>
      exact ⟨before, after, rfl, rfl, hafter.not_closed, fun v w hsplit => hafter.closed hsplit⟩

end OpenText

/-- What comes of the check of the parentheses of a text. -/
inductive ParensOutcome (s : List Char) : Except ParseError Unit → Prop
  | ok (h : OpenText s []) : ParensOutcome s (.ok ())
  | unopened {before after : List Char} (hs : s = before ++ ')' :: after)
      (h : OpenText before []) :
      ParensOutcome s (.error ⟨.unopenedParen, .single (byteLength before)⟩)
  | unclosed {start : Nat} {opened : List Nat} (h : OpenText s (start :: opened)) :
      ParensOutcome s (.error ⟨.unclosedParen, .single start⟩)

/-- The invariant is that the text before is open at the offsets that the check keeps. -/
theorem checkParens_outcome {u : List Char} {opened : List Nat} (hu : OpenText u opened)
    (cs : List Char) : ParensOutcome (u ++ cs) (checkParens opened (byteLength u) cs) := by
  induction cs generalizing u opened with
  | nil =>
      rw [List.append_nil, checkParens.eq_def]
      cases opened with
      | nil => exact .ok hu
      | cons start opened => exact .unclosed hu
  | cons c cs ih =>
      -- The text read so far grows by one character, and `checkParens` moves on by its size.
      have hmove : byteLength (u ++ [c]) = byteLength u + c.utf8Size := by simp
      have hsplit : u ++ c :: cs = u ++ [c] ++ cs := by simp
      by_cases hopen : c = '('
      · subst hopen
        rw [checkParens_open, hsplit, ← hmove]
        exact ih (.cons hu .nil)
      · by_cases hclose : c = ')'
        · subst hclose
          cases opened with
          | nil =>
              rw [checkParens_close_nil]
              exact .unopened rfl hu
          | cons start opened =>
              rw [checkParens_close, hsplit, ← hmove]
              exact ih hu.close
        · rw [checkParens_other _ _ _ hopen hclose, hsplit, ← hmove]
          exact ih (hu.append (.char c hopen hclose))

end FiniteState.Regex
