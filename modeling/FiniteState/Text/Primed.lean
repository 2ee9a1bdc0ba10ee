/-!
# Names that are not taken

Constructions name their states after the states they are made of, and two different
states may then come out with one name. The later one is told apart by primes.
-/

namespace FiniteState.Text

/-- At most `n` primes are put after `name`, one at a time while it is among `taken`. -/
def primeUpTo (taken : List String) : Nat → String → String
  | 0, name => name
  | n + 1, name => if name ∈ taken then primeUpTo taken n (name ++ "'") else name

/-- `name` with as few primes after it as keep it apart from all names in `taken`. As
many primes as there are taken names always suffice. -/
def primed (taken : List String) (name : String) : String :=
  primeUpTo taken taken.length name

theorem length_append_prime (name : String) : (name ++ "'").length = name.length + 1 := by
  rw [String.length_append]
  rfl

theorem length_primeUpTo (taken : List String) (n : Nat) (name : String) :
    name.length ≤ (primeUpTo taken n name).length := by
  induction n generalizing name with
  | zero => exact Nat.le_refl _
  | succ n ih =>
      rw [primeUpTo]
      split
      · refine Nat.le_trans ?_ (ih (name ++ "'"))
        rw [length_append_prime]
        exact Nat.le_succ _
      · exact Nat.le_refl _

/-- Names that are too short to come up do not matter. -/
theorem primeUpTo_filter (taken : List String) (short : String) (n : Nat) (name : String)
    (h : short.length < name.length) :
    primeUpTo (taken.filter fun t => t != short) n name = primeUpTo taken n name := by
  induction n generalizing name with
  | zero => rfl
  | succ n ih =>
      have hne : ¬ name = short := fun he => Nat.lt_irrefl _ (he ▸ h)
      have hmem : name ∈ taken.filter (fun t => t != short) ↔ name ∈ taken := by
        simp [List.mem_filter, hne]
      rw [primeUpTo, primeUpTo, ih (name ++ "'") (by rw [length_append_prime]; omega)]
      simp only [hmem]

theorem primeUpTo_not_mem (taken : List String) (n : Nat) (name : String)
    (h : taken.length ≤ n) : ¬ primeUpTo taken n name ∈ taken := by
  induction n generalizing taken name with
  | zero =>
      have : taken = [] := List.eq_nil_of_length_eq_zero (Nat.le_zero.1 h)
      simp [this]
  | succ n ih =>
      rw [primeUpTo]
      split
      · next hmem =>
          have hlt : (taken.filter fun t => t != name).length < taken.length :=
            List.length_filter_lt_length_iff_exists.2 ⟨name, hmem, by simp⟩
          have hfree := ih (taken.filter fun t => t != name) (name ++ "'") (by omega)
          rw [primeUpTo_filter taken name n (name ++ "'") (by rw [length_append_prime]; omega)]
            at hfree
          intro hm
          have hlen := length_primeUpTo taken n (name ++ "'")
          have hne : ¬ primeUpTo taken n (name ++ "'") = name := fun he => by
            rw [he, length_append_prime] at hlen
            omega
          exact hfree (List.mem_filter.2 ⟨hm, by simpa using hne⟩)
      · next hmem => exact hmem

/-- A primed name is not taken. -/
theorem primed_not_mem (taken : List String) (name : String) :
    ¬ primed taken name ∈ taken :=
  primeUpTo_not_mem taken taken.length name (Nat.le_refl _)

/-- Gives each name in turn the primes that keep it apart from `taken` and from the
names before it. -/
def distinct (taken : List String) : List String → List String
  | [] => []
  | name :: names =>
      primed taken name :: distinct (primed taken name :: taken) names

@[simp] theorem distinct_nil (taken : List String) : distinct taken [] = [] := rfl

theorem distinct_cons (taken : List String) (name : String) (names : List String) :
    distinct taken (name :: names) =
      primed taken name :: distinct (primed taken name :: taken) names := rfl

@[simp] theorem length_distinct (taken names : List String) :
    (distinct taken names).length = names.length := by
  induction names generalizing taken with
  | nil => rfl
  | cons name names ih => simp [distinct_cons, ih]

theorem not_mem_of_mem_distinct (taken names : List String) (name : String)
    (h : name ∈ distinct taken names) : ¬ name ∈ taken := by
  induction names generalizing taken with
  | nil => simp at h
  | cons first names ih =>
      rw [distinct_cons] at h
      rcases List.mem_cons.1 h with rfl | h
      · exact primed_not_mem taken first
      · exact fun hm => ih _ h (List.mem_cons_of_mem _ hm)

/-- No name comes out twice. -/
theorem nodup_distinct (taken names : List String) : (distinct taken names).Nodup := by
  induction names generalizing taken with
  | nil => exact List.nodup_nil
  | cons name names ih =>
      rw [distinct_cons]
      exact List.nodup_cons.2
        ⟨fun h => not_mem_of_mem_distinct _ names _ h List.mem_cons_self, ih _⟩

end FiniteState.Text
