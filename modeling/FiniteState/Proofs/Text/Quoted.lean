import Mathlib.Data.List.Nodup
import FiniteState.Text.Quoted

/-!
# Quoted words can be told apart

What stands for a character in quotes tells where it ends: a letter behind a backslash is one
character, a code ends at its brace, and nothing else begins with a backslash. So no two words are
shown in the same way.
-/

namespace FiniteState.Text

/-! ## Codes -/

theorem digitChar_inj {i j : Nat} (hi : i < 16) (hj : j < 16)
    (h : Nat.digitChar i = Nat.digitChar j) : i = j := by
  have hall : ∀ i < 16, ∀ j < 16, Nat.digitChar i = Nat.digitChar j → i = j := by decide
  exact hall i hi j hj h

theorem brace_not_mem_toDigits (n : Nat) : '\x7d' ∉ Nat.toDigits 16 n := by
  have hdigit : ∀ i < 16, Nat.digitChar i ≠ '\x7d' := by decide
  induction n using Nat.strongRecOn with
  | ind n ih =>
      rw [Nat.toDigits_eq_if (by decide)]
      split
      · next hlt =>
          rw [List.mem_singleton]
          exact (hdigit n hlt).symm
      · next hle =>
          rw [List.mem_append, List.mem_singleton]
          rintro (hmem | hlast)
          · exact ih (n / 16) (by omega) hmem
          · exact hdigit (n % 16) (Nat.mod_lt n (by decide)) hlast.symm

theorem toDigits_injective : Function.Injective (Nat.toDigits 16) := by
  intro m n h
  induction m using Nat.strongRecOn generalizing n with
  | ind m ih =>
      have hlong : ∀ k (c d : Char), Nat.toDigits 16 k ++ [c] ≠ [d] := by
        intro k c d heq
        have hlength := congrArg List.length heq
        have hpos := Nat.length_toDigits_pos (b := 16) (n := k)
        rw [List.length_append, List.length_singleton, List.length_singleton] at hlength
        omega
      rw [Nat.toDigits_eq_if (by decide), Nat.toDigits_eq_if (n := n) (by decide)] at h
      by_cases hm : m < 16
      · by_cases hn : n < 16
        · rw [if_pos hm, if_pos hn, List.singleton_inj] at h
          exact digitChar_inj hm hn h
        · rw [if_pos hm, if_neg hn] at h
          exact absurd h.symm (hlong _ _ _)
      · by_cases hn : n < 16
        · rw [if_neg hm, if_pos hn] at h
          exact absurd h (hlong _ _ _)
        · rw [if_neg hm, if_neg hn] at h
          obtain ⟨hfront, hlast⟩ := List.append_inj' h rfl
          have hquot : m / 16 = n / 16 := ih (m / 16) (by omega) hfront
          have hmod : m % 16 = n % 16 := digitChar_inj (Nat.mod_lt m (by decide))
            (Nat.mod_lt n (by decide)) (List.singleton_inj.1 hlast)
          omega

theorem takeWhile_toDigits_brace (n : Nat) (cs : List Char) :
    (Nat.toDigits 16 n ++ '\x7d' :: cs).takeWhile (· != '\x7d') = Nat.toDigits 16 n := by
  rw [List.takeWhile_append_of_pos]
  · simp
  · exact fun c hc => bne_iff_ne.2 fun heq => brace_not_mem_toDigits n (heq ▸ hc)

/-- A code can be cut off at its brace. -/
theorem codeOf_append_inj {c d : Char} {u v : List Char} (h : codeOf c ++ u = codeOf d ++ v) :
    c = d ∧ u = v := by
  have hbody : Nat.toDigits 16 c.toNat ++ '\x7d' :: u =
      Nat.toDigits 16 d.toNat ++ '\x7d' :: v := by
    simpa [codeOf] using h
  have hdigits := congrArg (List.takeWhile (· != '\x7d')) hbody
  rw [takeWhile_toDigits_brace, takeWhile_toDigits_brace] at hdigits
  rw [hdigits] at hbody
  have hrest := (List.cons.inj (List.append_cancel_left hbody)).2
  exact ⟨Char.toNat_inj.1 (toDigits_injective hdigits), hrest⟩

/-! ## Characters -/

/-- The characters that are written by a letter, each with its letter. -/
def lettered : List (Char × Char) :=
  [('"', '"'), ('\\', '\\'), ('\t', 't'), ('\n', 'n'), ('\r', 'r'), ('\x00', '0')]

theorem mem_lettered {c letter : Char} (h : quoteLetter? c = some letter) :
    (c, letter) ∈ lettered := by
  grind [quoteLetter?, lettered]

/-- No letter stands for two characters. -/
theorem quoteLetter?_inj {c d letter : Char} (hc : quoteLetter? c = some letter)
    (hd : quoteLetter? d = some letter) : c = d := by
  have hletters : (lettered.map Prod.snd).Nodup := by decide
  have heq := List.inj_on_of_nodup_map hletters (mem_lettered hc) (mem_lettered hd) rfl
  exact congrArg Prod.fst heq

/-- No letter is mistaken for the beginning of a code. -/
theorem quoteLetter?_ne (c : Char) : quoteLetter? c ≠ some 'u' := by
  have hletters : ∀ p ∈ lettered, p.2 ≠ 'u' := by decide
  exact fun h => hletters _ (mem_lettered h) rfl

/-- A character is written by a letter, by its code, or as it is. -/
theorem quoteChar_cases (c : Char) :
    (∃ letter, quoteLetter? c = some letter ∧ quoteChar c = ['\\', letter]) ∨
      quoteChar c = codeOf c ∨ (c ≠ '\\' ∧ quoteChar c = [c]) := by
  rw [quoteChar]
  cases hletter : quoteLetter? c with
  | some letter => exact .inl ⟨letter, rfl, rfl⟩
  | none =>
      cases isCoded c with
      | true => exact .inr (.inl rfl)
      | false =>
          refine .inr (.inr ⟨?_, rfl⟩)
          rintro rfl
          cases hletter

/-- What stands for a character can be cut off. -/
theorem quoteChar_append_inj {c d : Char} {u v : List Char}
    (h : quoteChar c ++ u = quoteChar d ++ v) : c = d ∧ u = v := by
  rcases quoteChar_cases c with ⟨x, hx, hc⟩ | hc | ⟨hraw, hc⟩
  · rcases quoteChar_cases d with ⟨y, hy, hd⟩ | hd | ⟨hraw', hd⟩
    · rw [hc, hd] at h
      obtain ⟨rfl, rfl⟩ : x = y ∧ u = v := by simpa using h
      exact ⟨quoteLetter?_inj hx hy, rfl⟩
    · rw [hc, hd] at h
      obtain ⟨rfl, -⟩ : x = 'u' ∧ _ := by simpa [codeOf] using h
      exact absurd hx (quoteLetter?_ne c)
    · rw [hc, hd] at h
      exact absurd (List.cons.inj h).1.symm hraw'
  · rcases quoteChar_cases d with ⟨y, hy, hd⟩ | hd | ⟨hraw', hd⟩
    · rw [hc, hd] at h
      obtain ⟨rfl, -⟩ : 'u' = y ∧ _ := by simpa [codeOf] using h
      exact absurd hy (quoteLetter?_ne d)
    · rw [hc, hd] at h
      exact codeOf_append_inj h
    · rw [hc, hd] at h
      exact absurd (List.cons.inj h).1.symm hraw'
  · rcases quoteChar_cases d with ⟨y, hy, hd⟩ | hd | ⟨-, hd⟩
    · rw [hc, hd] at h
      exact absurd (List.cons.inj h).1 hraw
    · rw [hc, hd] at h
      exact absurd (List.cons.inj h).1 hraw
    · rw [hc, hd] at h
      exact List.cons.inj h

theorem quoteChar_ne_nil (c : Char) : quoteChar c ≠ [] := by
  rcases quoteChar_cases c with ⟨x, -, hc⟩ | hc | ⟨-, hc⟩ <;> rw [hc] <;>
    exact List.cons_ne_nil _ _

/-! ## Words -/

theorem flatMap_quoteChar_injective :
    Function.Injective fun w : List Char => w.flatMap quoteChar := by
  intro v w h
  induction v generalizing w with
  | nil =>
      cases w with
      | nil => rfl
      | cons d w => exact absurd (List.append_eq_nil_iff.1 h.symm).1 (quoteChar_ne_nil d)
  | cons c v ih =>
      cases w with
      | nil => exact absurd (List.append_eq_nil_iff.1 h).1 (quoteChar_ne_nil c)
      | cons d w =>
          obtain ⟨rfl, hrest⟩ := quoteChar_append_inj h
          rw [ih hrest]

/-- Words that look the same in quotes are the same. -/
theorem quoted_injective : Function.Injective quoted := by
  intro v w h
  have hlists := (List.cons.inj (String.ofList_injective h)).2
  exact flatMap_quoteChar_injective (List.append_cancel_right hlists)

end FiniteState.Text
