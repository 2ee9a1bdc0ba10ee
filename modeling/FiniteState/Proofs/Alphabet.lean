import Mathlib.Data.List.Nodup
import Mathlib.Data.List.Sort
import Mathlib.Order.Bounds.Defs
import FiniteState.Alphabet

/-!
# Alphabets as sets

An alphabet holds its characters in order and each of them once. So it is known from its members
alone, and what comes first in it is the least of them.
-/

namespace FiniteState.Alphabet

theorem nodup_symbols (S : Alphabet) : S.symbols.Nodup :=
  S.increasing.imp fun hlt => Char.ne_of_lt hlt

/-- An alphabet is its set of characters. -/
theorem ext_mem {S T : Alphabet} (h : ∀ c, c ∈ S ↔ c ∈ T) : S = T := by
  cases S with
  | mk cs hcs =>
      cases T with
      | mk ds hds =>
          obtain rfl : cs = ds := hcs.eq_of_mem_iff hds h
          rfl

theorem union_comm (S T : Alphabet) : S.union T = T.union S :=
  ext_mem fun c => by rw [mem_union, mem_union, or_comm]

/-- The first character of an alphabet that is not in another one is the least. -/
theorem head?_without_eq_some_iff (S T : Alphabet) (c : Char) :
    (S.without T).head? = some c ↔ IsLeast {d | d ∈ S ∧ ¬ d ∈ T} c := by
  have hmem : ∀ d, d ∈ S.without T ↔ d ∈ S ∧ ¬ d ∈ T := S.mem_without T
  have hsorted : (S.without T).Pairwise (· < ·) := S.increasing.filter _
  simp only [← hmem]
  generalize S.without T = cs at hsorted
  cases cs with
  | nil => simp [IsLeast]
  | cons d ds =>
      have hle : ∀ e ∈ d :: ds, d ≤ e := by
        intro e he
        rcases List.mem_cons.1 he with rfl | he
        · exact Std.le_refl _
        · exact Std.le_of_lt ((List.pairwise_cons.1 hsorted).1 e he)
      rw [List.head?_cons, Option.some.injEq]
      constructor
      · rintro rfl
        exact ⟨List.mem_cons_self, hle⟩
      · rintro ⟨hc, hleast⟩
        exact Char.le_antisymm (hle c hc) (hleast List.mem_cons_self)

end FiniteState.Alphabet
