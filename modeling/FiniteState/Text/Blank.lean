/-!
# Blank characters

The characters with the Unicode property White_Space, and the removal of blanks at
both ends of a text.
-/

namespace FiniteState.Text

/-- The characters of White_Space, as ranges of code points with both ends included. -/
def blankRanges : List (Nat × Nat) :=
  [(0x09, 0x0D), (0x20, 0x20), (0x85, 0x85), (0xA0, 0xA0), (0x1680, 0x1680),
   (0x2000, 0x200A), (0x2028, 0x2029), (0x202F, 0x202F), (0x205F, 0x205F),
   (0x3000, 0x3000)]

/-- Whether a character is white space. -/
def isBlank (c : Char) : Bool :=
  blankRanges.any fun r => r.1 ≤ c.toNat && c.toNat ≤ r.2

/-- A text without the blanks at its two ends. -/
def trim (cs : List Char) : List Char :=
  ((cs.dropWhile isBlank).reverse.dropWhile isBlank).reverse

/-- A text that neither begins nor ends with a blank is left as it is. -/
theorem trim_eq_self (cs : List Char)
    (hfirst : ∀ c, cs.head? = some c → isBlank c = false)
    (hlast : ∀ c, cs.getLast? = some c → isBlank c = false) : trim cs = cs := by
  have hleft : cs.dropWhile isBlank = cs := by
    cases cs with
    | nil => rfl
    | cons c cs => simp [List.dropWhile, hfirst c rfl]
  have hright : cs.reverse.dropWhile isBlank = cs.reverse := by
    cases hr : cs.reverse with
    | nil => rfl
    | cons c ds =>
        have : cs.getLast? = some c := by
          rw [← List.head?_reverse, hr]; rfl
        simp [List.dropWhile, hlast c this]
  rw [trim, hleft, hright, List.reverse_reverse]

end FiniteState.Text
