/-!
# Sets of numbered states

A set of natural numbers is kept as one number, whose binary digit `i` says whether `i`
belongs to it. Sets with the same members are then equal, and a subset of the states of
an automaton is compared and looked up as a whole.
-/

namespace FiniteState

/-- A finite set of natural numbers. -/
structure StateSet where
  bits : Nat
deriving DecidableEq, Inhabited

namespace StateSet

def contains (s : StateSet) (i : Nat) : Bool := s.bits.testBit i

def empty : StateSet := ⟨0⟩

def single (i : Nat) : StateSet := ⟨1 <<< i⟩

def union (s t : StateSet) : StateSet := ⟨s.bits ||| t.bits⟩

def inter (s t : StateSet) : StateSet := ⟨s.bits &&& t.bits⟩

/-- Whether the sets have a member in common. -/
def meets (s t : StateSet) : Bool := !decide (s.inter t = empty)

/-- The members of all sets of a list. -/
def unionAll (sets : List StateSet) : StateSet := sets.foldl union empty

def ofList (members : List Nat) : StateSet := unionAll (members.map single)

/-- The members below `n`, in order. -/
def below (s : StateSet) (n : Nat) : List Nat := (List.range n).filter s.contains

theorem ext_contains {s t : StateSet} (h : ∀ i, s.contains i = t.contains i) : s = t := by
  cases s; cases t
  exact congrArg _ (Nat.eq_of_testBit_eq h)

@[simp] theorem contains_empty (i : Nat) : empty.contains i = false := by
  simp [contains, empty]

@[simp] theorem contains_single (i j : Nat) :
    (single i).contains j = decide (i = j) := by
  simp [contains, single, Nat.one_shiftLeft, Nat.testBit_two_pow]

@[simp] theorem contains_union (s t : StateSet) (i : Nat) :
    (s.union t).contains i = (s.contains i || t.contains i) := by
  simp [contains, union]

@[simp] theorem contains_inter (s t : StateSet) (i : Nat) :
    (s.inter t).contains i = (s.contains i && t.contains i) := by
  simp [contains, inter]

theorem contains_foldl_union (sets : List StateSet) (s : StateSet) (i : Nat) :
    (sets.foldl union s).contains i = (s.contains i || sets.any (·.contains i)) := by
  induction sets generalizing s with
  | nil => simp
  | cons t ts ih => simp [ih, Bool.or_assoc]

@[simp] theorem contains_unionAll (sets : List StateSet) (i : Nat) :
    (unionAll sets).contains i = sets.any (·.contains i) := by
  simp [unionAll, contains_foldl_union]

@[simp] theorem contains_ofList (members : List Nat) (i : Nat) :
    (ofList members).contains i = decide (i ∈ members) := by
  rw [ofList, contains_unionAll, List.any_map]
  induction members with
  | nil => simp
  | cons m ms ih =>
      simp only [List.any_cons, Function.comp_apply, contains_single, ih, List.mem_cons,
        Bool.decide_or, eq_comm]

@[simp] theorem mem_below (s : StateSet) (n i : Nat) :
    i ∈ s.below n ↔ i < n ∧ s.contains i = true := by
  simp [below]

/-- Sets meet when some number belongs to both. -/
theorem meets_iff (s t : StateSet) :
    s.meets t = true ↔ ∃ i, s.contains i = true ∧ t.contains i = true := by
  constructor
  · intro h
    have hne : ¬ s.inter t = empty := by simpa [meets] using h
    by_cases hex : ∃ i, s.contains i = true ∧ t.contains i = true
    · exact hex
    · exact absurd (ext_contains fun i => by
        rw [contains_inter, contains_empty]
        cases hs : s.contains i with
        | false => rfl
        | true =>
            cases ht : t.contains i with
            | false => rfl
            | true => exact absurd ⟨i, hs, ht⟩ hex) hne
  · rintro ⟨i, hs, ht⟩
    have hne : ¬ s.inter t = empty := fun he => by
      have := congrArg (·.contains i) he
      simp [hs, ht] at this
    simp [meets, hne]

end StateSet

end FiniteState
