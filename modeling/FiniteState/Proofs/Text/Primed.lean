import FiniteState.Text.Primed

/-!
# How many primes a name gets

Primes are put after a name one at a time, and only while the name is taken. The candidates are
different, so after as many primes as there are taken names one of them is free, and the first free
one is what comes out. Names that are given in turn are therefore all different, and each is its
own base form with primes.
-/

namespace FiniteState.Text

/-- A name with `k` primes after it. -/
def withPrimes (name : String) (k : Nat) : String :=
  name ++ String.ofList (List.replicate k '\'')

/-- A base form with primes after it. -/
def IsPrimed (base name : String) : Prop := ∃ k, name = withPrimes base k

theorem withPrimes_zero (name : String) : withPrimes name 0 = name := by
  rw [withPrimes, List.replicate_zero, String.ofList_nil, String.append_empty]

theorem withPrimes_succ (name : String) (k : Nat) :
    withPrimes name (k + 1) = withPrimes (name ++ "'") k := by
  rw [withPrimes, withPrimes, List.replicate_succ]
  exact String.toList_injective (by simp)

/-- All candidates before the one that comes out are taken. -/
theorem exists_primeUpTo_eq (taken : List String) (n : Nat) (name : String) : ∃ k ≤ n,
    primeUpTo taken n name = withPrimes name k ∧ ∀ j < k, withPrimes name j ∈ taken := by
  induction n generalizing name with
  | zero => exact ⟨0, Nat.le_refl 0, (withPrimes_zero name).symm, fun j hj => absurd hj (by omega)⟩
  | succ n ih =>
      rw [primeUpTo]
      split
      · next hmem =>
          obtain ⟨k, hk, heq, hall⟩ := ih (name ++ "'")
          refine ⟨k + 1, Nat.succ_le_succ hk, heq.trans (withPrimes_succ name k).symm, ?_⟩
          intro j hj
          cases j with
          | zero => rwa [withPrimes_zero]
          | succ j =>
              rw [withPrimes_succ]
              exact hall j (Nat.lt_of_succ_lt_succ hj)
      · exact ⟨0, Nat.zero_le _, (withPrimes_zero name).symm, fun j hj => absurd hj (by omega)⟩

/-- The first candidate that is free comes out, after no more primes than there are taken names. -/
theorem exists_primed_eq_withPrimes (taken : List String) (name : String) :
    ∃ k ≤ taken.length, primed taken name = withPrimes name k ∧
      ¬ withPrimes name k ∈ taken ∧ ∀ j < k, withPrimes name j ∈ taken := by
  obtain ⟨k, hk, heq, hall⟩ := exists_primeUpTo_eq taken taken.length name
  refine ⟨k, hk, heq, ?_, hall⟩
  rw [← heq]
  exact primed_not_mem taken name

theorem isPrimed_primed (taken : List String) (name : String) :
    IsPrimed name (primed taken name) := by
  obtain ⟨k, -, heq, -⟩ := exists_primed_eq_withPrimes taken name
  exact ⟨k, heq⟩

theorem isPrimed_of_getElem?_distinct {taken names : List String} {i : Nat} {base name : String}
    (hbase : names[i]? = some base) (hname : (distinct taken names)[i]? = some name) :
    IsPrimed base name := by
  induction names generalizing taken i with
  | nil => cases hbase
  | cons first names ih =>
      rw [distinct_cons] at hname
      cases i with
      | zero =>
          obtain rfl := Option.some.inj hbase
          obtain rfl := Option.some.inj hname
          exact isPrimed_primed taken first
      | succ i => exact ih hbase hname

end FiniteState.Text
