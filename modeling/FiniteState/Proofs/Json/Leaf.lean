import FiniteState.Json.Printer
import FiniteState.Json.Reader

/-!
# Strings and numbers that are read back

A string is read back from its text, whatever characters it holds: every character is written
in one of three ways, and each of them is read as this character. A number is read to where it
ends, so what stands behind it changes nothing as long as it could not continue the number.
-/

namespace FiniteState.Json

/-! ## Space -/

/-- A text that is skipped. -/
def IsSpaces (gap : List Char) : Prop := ∀ c ∈ gap, isSpace c = true

theorem isSpaces_nil : IsSpaces [] := by simp [IsSpaces]

theorem skipSpace_cons {c : Char} (hc : isSpace c = false) (cs : List Char) :
    skipSpace (c :: cs) = c :: cs := by
  rw [skipSpace, List.dropWhile_cons, hc]
  rfl

theorem skipSpace_append {gap : List Char} (hgap : IsSpaces gap) (cs : List Char) :
    skipSpace (gap ++ cs) = skipSpace cs := by
  induction gap with
  | nil => rfl
  | cons c gap ih =>
      obtain ⟨hc, hgap⟩ := List.forall_mem_cons.1 hgap
      rw [List.cons_append, skipSpace, List.dropWhile_cons, hc]
      exact ih hgap

/-- Space in front of a text that does not begin with space. -/
theorem skipSpace_append_cons {gap : List Char} (hgap : IsSpaces gap) {c : Char}
    (hc : isSpace c = false) (cs : List Char) : skipSpace (gap ++ c :: cs) = c :: cs := by
  rw [skipSpace_append hgap, skipSpace_cons hc]

/-- What may stand behind a value: the next part of a list or a record, its end, or space. -/
def Delimited (rest : List Char) : Prop :=
  ∀ c, rest.head? = some c → c = ',' ∨ c = ']' ∨ c = '\x7d' ∨ isSpace c = true

theorem delimited_nil : Delimited [] := by simp [Delimited]

theorem delimited_cons {c : Char} (hc : c = ',' ∨ c = ']' ∨ c = '\x7d' ∨ isSpace c = true)
    (cs : List Char) : Delimited (c :: cs) := by
  intro d hd
  rw [List.head?_cons, Option.some.injEq] at hd
  exact hd ▸ hc

/-- Space in front of what may stand behind a value may stand there as well. -/
theorem delimited_append {gap rest : List Char} (hgap : IsSpaces gap) (hrest : Delimited rest) :
    Delimited (gap ++ rest) := by
  cases gap with
  | nil => exact hrest
  | cons c gap => exact delimited_cons (.inr (.inr (.inr (hgap c List.mem_cons_self)))) _

/-! ## Strings -/

theorem hexValue?_hexDigit : ∀ n < 16, hexValue? (hexDigit n) = some n := by decide

/-- Two digits behind two zeros, as control characters are written. -/
theorem fourHex_hexDigit (n : Nat) (hn : n < 256) (cs : List Char) :
    fourHex ('0' :: '0' :: hexDigit (n / 16) :: hexDigit (n % 16) :: cs) = .ok (n, cs) := by
  have hzero : hexValue? '0' = some 0 := by decide
  have hvalue : ((0 * 16 + 0) * 16 + n / 16) * 16 + n % 16 = n := by omega
  rw [fourHex, hzero, hexValue?_hexDigit _ (by omega), hexValue?_hexDigit _ (by omega)]
  simp only [hvalue]

/-- The letters of the escapes are read as what they were written for. -/
theorem escape_of_letter {c letter : Char} (h : escapeLetter? c = some letter)
    (unicode : Reader Char) (cs : List Char) : escape unicode (letter :: cs) = .ok (c, cs) := by
  rw [escapeLetter?] at h
  repeat' split at h
  all_goals
    first
      | (cases h; subst_vars; rfl)
      | cases h

theorem escape_control {c : Char} (hc : c.toNat < 0x20) (cs : List Char) :
    escape unicodeEscape
      ('u' :: '0' :: '0' :: hexDigit (c.toNat / 16) :: hexDigit (c.toNat % 16) :: cs) =
      .ok (c, cs) := by
  have htrailing : isTrailing c.toNat = false := by simp [isTrailing]; omega
  have hleading : isLeading c.toNat = false := by simp [isLeading]; omega
  rw [escape, if_pos rfl, unicodeEscape, fourHex_hexDigit _ (by omega)]
  simp [htrailing, hleading, Char.ofNat_toNat]

/-- A written character is read as this character. -/
theorem stringRest_escapeChar (c : Char) (n : Nat) (read cs : List Char) :
    stringRest unicodeEscape (n + 1) read (escapeChar c ++ cs) =
      stringRest unicodeEscape n (c :: read) cs := by
  have hbackslash : ('\\' : Char) ≠ '"' := by decide
  -- A character is written with a letter, with digits, or as it is.
  rw [escapeChar]
  cases hletter : escapeLetter? c with
  | some letter =>
      rw [List.cons_append, List.singleton_append, stringRest, if_neg hbackslash, if_pos rfl,
        escape_of_letter hletter]
  | none =>
      by_cases hcontrol : c.toNat < 0x20
      · rw [if_pos hcontrol]
        simp only [List.cons_append, List.nil_append]
        rw [stringRest, if_neg hbackslash, if_pos rfl, escape_control hcontrol]
      · have hquote : c ≠ '"' := by rintro rfl; cases hletter
        have hslash : c ≠ '\\' := by rintro rfl; cases hletter
        rw [if_neg hcontrol, List.singleton_append, stringRest, if_neg hquote, if_neg hslash,
          if_neg hcontrol]

theorem length_escapeChar_pos (c : Char) : 0 < (escapeChar c).length := by
  unfold escapeChar
  split
  · simp
  · split <;> simp

theorem stringRest_flatMap_escapeChar (s : List Char) (n : Nat) (hn : s.length < n)
    (read rest : List Char) :
    stringRest unicodeEscape n read (s.flatMap escapeChar ++ '"' :: rest) =
      .ok (read.reverse ++ s, rest) := by
  induction s generalizing n read with
  | nil =>
      obtain ⟨n, rfl⟩ := Nat.exists_eq_add_of_lt hn
      simp [stringRest]
  | cons c s ih =>
      rw [List.length_cons] at hn
      obtain ⟨n, rfl⟩ : ∃ m, n = m + 1 := ⟨n - 1, by omega⟩
      rw [List.flatMap_cons, List.append_assoc, stringRest_escapeChar, ih n (by omega),
        List.reverse_cons, List.append_assoc, List.singleton_append]

/-- A string is read back from its text. -/
theorem stringBody_flatMap_escapeChar (s : String) (rest : List Char) :
    stringBody (s.toList.flatMap escapeChar ++ '"' :: rest) = .ok (s, rest) := by
  have hlength : ∀ cs : List Char, cs.length ≤ (cs.flatMap escapeChar).length := by
    intro cs
    induction cs with
    | nil => simp
    | cons c cs ih =>
        have hpos := length_escapeChar_pos c
        rw [List.flatMap_cons, List.length_append, List.length_cons]
        omega
  have hfuel : s.toList.length < (s.toList.flatMap escapeChar ++ '"' :: rest).length := by
    have hle := hlength s.toList
    rw [List.length_append, List.length_cons]
    omega
  rw [stringBody, stringRest_flatMap_escapeChar _ _ hfuel]
  simp

/-! ## Numbers -/

/-- A character that stands behind values is no part of a number. -/
theorem not_continues_of_delimited {c : Char}
    (hc : c = ',' ∨ c = ']' ∨ c = '\x7d' ∨ isSpace c = true) :
    digitValue? c = none ∧ c ≠ '.' ∧ c ≠ 'e' ∧ c ≠ 'E' := by
  have hspace : isSpace c = true → c = ' ' ∨ c = '\n' ∨ c = '\t' ∨ c = '\r' := by
    simp [isSpace, or_assoc]
  rcases hc with rfl | rfl | rfl | hc
  · decide
  · decide
  · decide
  · rcases hspace hc with rfl | rfl | rfl | rfl <;> decide

section Numbers

variable {cs left rest : List Char}

theorem digits_append (hrest : Delimited rest) (cs : List Char) :
    digits (cs ++ rest) = ((digits cs).1, (digits cs).2 ++ rest) := by
  induction cs with
  | nil =>
      cases rest with
      | nil => rfl
      | cons c rest =>
          have hc := (not_continues_of_delimited (hrest c rfl)).1
          simp [digits, hc]
  | cons c cs ih =>
      rw [List.cons_append, digits, digits]
      cases digitValue? c with
      | none => rfl
      | some d => simp [ih]

theorem someDigits_append {ds : List Nat} (hrest : Delimited rest)
    (h : someDigits cs = .ok (ds, left)) : someDigits (cs ++ rest) = .ok (ds, left ++ rest) := by
  rw [someDigits] at h ⊢
  rw [digits_append hrest]
  cases hd : digits cs with
  | mk es rest' =>
      rw [hd] at h
      cases es with
      | nil => cases rest' <;> cases h
      | cons e es =>
          obtain ⟨rfl, rfl⟩ := Prod.mk.inj (Except.ok.inj h)
          rfl

theorem wholeDigits_append {ds : List Nat} (hrest : Delimited rest)
    (h : wholeDigits cs = .ok (ds, left)) :
    wholeDigits (cs ++ rest) = .ok (ds, left ++ rest) := by
  rw [wholeDigits] at h ⊢
  cases hd : someDigits cs with
  | error f => rw [hd] at h; cases h
  | ok r =>
      obtain ⟨es, rest'⟩ := r
      rw [hd] at h
      rw [someDigits_append hrest hd]
      simp only at h ⊢
      split at h
      · cases h
      · obtain ⟨rfl, rfl⟩ := Prod.mk.inj (Except.ok.inj h)
        rfl

theorem fractionDigits_append {ds : List Nat} (hrest : Delimited rest)
    (h : fractionDigits cs = .ok (ds, left)) :
    fractionDigits (cs ++ rest) = .ok (ds, left ++ rest) := by
  cases cs with
  | nil =>
      obtain ⟨rfl, rfl⟩ := Prod.mk.inj (Except.ok.inj h)
      cases rest with
      | nil => rfl
      | cons c rest =>
          have hc := (not_continues_of_delimited (hrest c rfl)).2.1
          simp [fractionDigits, hc]
  | cons c cs =>
      rw [List.cons_append, fractionDigits]
      rw [fractionDigits] at h
      by_cases hc : c = '.'
      · rw [if_pos hc] at h ⊢
        exact someDigits_append hrest h
      · rw [if_neg hc] at h ⊢
        obtain ⟨rfl, rfl⟩ := Prod.mk.inj (Except.ok.inj h)
        rfl

/-- A sign is followed by digits, so it does not stand at the end of what is read. -/
theorem exponentSign_append (hcs : (exponentSign cs).2 ≠ []) :
    exponentSign (cs ++ rest) = ((exponentSign cs).1, (exponentSign cs).2 ++ rest) := by
  cases cs with
  | nil => exact absurd rfl hcs
  | cons c cs =>
      simp only [List.cons_append, exponentSign]
      split
      · rfl
      · split <;> rfl

theorem exponent_append {e : Int} (hrest : Delimited rest) (h : exponent cs = .ok (e, left)) :
    exponent (cs ++ rest) = .ok (e, left ++ rest) := by
  cases cs with
  | nil =>
      obtain ⟨rfl, rfl⟩ := Prod.mk.inj (Except.ok.inj h)
      cases rest with
      | nil => rfl
      | cons c rest =>
          have hc := (not_continues_of_delimited (hrest c rfl)).2.2
          simp [exponent, hc]
  | cons c cs =>
      rw [List.cons_append, exponent]
      rw [exponent] at h
      by_cases hc : c = 'e' ∨ c = 'E'
      · rw [if_pos hc] at h ⊢
        cases hd : someDigits (exponentSign cs).2 with
        | error f => simp only [hd] at h; cases h
        | ok r =>
            obtain ⟨ds, rest'⟩ := r
            have hsign : (exponentSign cs).2 ≠ [] := by
              intro hnil
              rw [hnil] at hd
              cases hd
            simp only [hd] at h
            obtain ⟨rfl, rfl⟩ := Prod.mk.inj (Except.ok.inj h)
            simp only [exponentSign_append hsign, someDigits_append hrest hd]
      · rw [if_neg hc] at h ⊢
        obtain ⟨rfl, rfl⟩ := Prod.mk.inj (Except.ok.inj h)
        rfl

theorem unsigned_append {negative : Bool} {n : Decimal.Numeral} (hrest : Delimited rest)
    (h : unsigned negative cs = .ok (n, left)) :
    unsigned negative (cs ++ rest) = .ok (n, left ++ rest) := by
  rw [unsigned] at h ⊢
  cases hwhole : wholeDigits cs with
  | error f => rw [hwhole] at h; cases h
  | ok r =>
      obtain ⟨whole, cs'⟩ := r
      simp only [hwhole] at h
      simp only [wholeDigits_append hrest hwhole]
      cases hfraction : fractionDigits cs' with
      | error f => simp only [hfraction] at h; cases h
      | ok r =>
          obtain ⟨fraction, cs''⟩ := r
          simp only [hfraction] at h
          simp only [fractionDigits_append hrest hfraction]
          cases hexponent : exponent cs'' with
          | error f => simp only [hexponent] at h; cases h
          | ok r =>
              simp only [hexponent] at h
              obtain ⟨rfl, rfl⟩ := Prod.mk.inj (Except.ok.inj h)
              simp only [exponent_append hrest hexponent]

theorem numeral_append {n : Decimal.Numeral} (hrest : Delimited rest)
    (h : numeral cs = .ok (n, left)) : numeral (cs ++ rest) = .ok (n, left ++ rest) := by
  cases cs with
  | nil => cases h
  | cons c cs =>
      rw [List.cons_append, numeral]
      rw [numeral] at h
      by_cases hc : c = '-'
      · rw [if_pos hc] at h ⊢
        exact unsigned_append hrest h
      · rw [if_neg hc] at h ⊢
        exact unsigned_append hrest h

theorem numberBody_append {x : Float} (hrest : Delimited rest)
    (h : numberBody cs = .ok (x, left)) : numberBody (cs ++ rest) = .ok (x, left ++ rest) := by
  rw [numberBody] at h ⊢
  cases hn : numeral cs with
  | error f => rw [hn] at h; cases h
  | ok r =>
      obtain ⟨n, cs'⟩ := r
      simp only [hn] at h
      simp only [numeral_append hrest hn]
      cases hx : n.toFloat? with
      | none => simp only [hx] at h; cases h
      | some y =>
          simp only [hx] at h
          obtain ⟨rfl, rfl⟩ := Prod.mk.inj (Except.ok.inj h)
          rfl

end Numbers

end FiniteState.Json
