/-!
# Alphabets

An alphabet is a finite set of characters. It is kept as its strictly increasing
list of members, so two alphabets with the same members are equal, and every walk
over an alphabet meets the characters in code point order.
-/

namespace FiniteState

/-- Puts `c` at its place in an increasing list, unless it is there already. -/
def insertIncreasing (c : Char) : List Char → List Char
  | [] => [c]
  | d :: ds =>
      if c < d then c :: d :: ds
      else if c = d then d :: ds
      else d :: insertIncreasing c ds

@[simp] theorem mem_insertIncreasing (c d : Char) (ds : List Char) :
    d ∈ insertIncreasing c ds ↔ d = c ∨ d ∈ ds := by
  induction ds with
  | nil => simp [insertIncreasing]
  | cons e ds ih =>
      rw [insertIncreasing]
      split
      · simp
      · split
        · next h => subst h; simp
        · simp only [List.mem_cons, ih]
          constructor
          · rintro (h | h | h) <;> simp [h]
          · rintro (h | h | h) <;> simp [h]

theorem pairwise_insertIncreasing (c : Char) (ds : List Char)
    (h : ds.Pairwise (· < ·)) : (insertIncreasing c ds).Pairwise (· < ·) := by
  induction ds with
  | nil => simp [insertIncreasing]
  | cons e ds ih =>
      have hd := List.pairwise_cons.1 h
      rw [insertIncreasing]
      split
      · next hce =>
          refine List.pairwise_cons.2 ⟨fun x hx => ?_, h⟩
          rcases List.mem_cons.1 hx with rfl | hx
          · exact hce
          · exact Char.lt_trans hce (hd.1 x hx)
      · next hce =>
          split
          · exact h
          · next hne =>
              refine List.pairwise_cons.2 ⟨fun x hx => ?_, ih hd.2⟩
              rcases (mem_insertIncreasing c x ds).1 hx with rfl | hx
              · exact Char.not_le.1 fun hle => hne (Char.le_antisymm hle (Char.not_lt.1 hce))
              · exact hd.1 x hx

/-- A finite set of characters. -/
structure Alphabet where
  /-- The members in code point order, each once. -/
  symbols : List Char
  increasing : symbols.Pairwise (· < ·)
deriving DecidableEq

namespace Alphabet

def empty : Alphabet := ⟨[], List.Pairwise.nil⟩

instance : Inhabited Alphabet := ⟨empty⟩

instance : Membership Char Alphabet := ⟨fun S c => c ∈ S.symbols⟩

instance (c : Char) (S : Alphabet) : Decidable (c ∈ S) :=
  inferInstanceAs (Decidable (c ∈ S.symbols))

theorem mem_def (S : Alphabet) (c : Char) : c ∈ S ↔ c ∈ S.symbols := Iff.rfl

def insert (S : Alphabet) (c : Char) : Alphabet :=
  ⟨insertIncreasing c S.symbols, pairwise_insertIncreasing c S.symbols S.increasing⟩

@[simp] theorem mem_insert (S : Alphabet) (c d : Char) :
    d ∈ S.insert c ↔ d = c ∨ d ∈ S :=
  mem_insertIncreasing c d S.symbols

/-- `S` with all characters of a list. -/
def insertAll (S : Alphabet) (cs : List Char) : Alphabet := cs.foldl insert S

@[simp] theorem insertAll_nil (S : Alphabet) : S.insertAll [] = S := rfl

theorem insertAll_cons (S : Alphabet) (c : Char) (cs : List Char) :
    S.insertAll (c :: cs) = (S.insert c).insertAll cs := rfl

@[simp] theorem mem_insertAll (S : Alphabet) (cs : List Char) (d : Char) :
    d ∈ S.insertAll cs ↔ d ∈ cs ∨ d ∈ S := by
  induction cs generalizing S with
  | nil => simp
  | cons c cs ih =>
      rw [insertAll_cons, ih, mem_insert, List.mem_cons]
      constructor
      · rintro (h | h | h) <;> simp [h]
      · rintro ((h | h) | h) <;> simp [h]

/-- The set of the characters of a list, in any order and with repetitions. -/
def ofList (cs : List Char) : Alphabet := empty.insertAll cs

@[simp] theorem not_mem_empty (c : Char) : ¬ c ∈ empty := by
  simp [mem_def, empty]

@[simp] theorem mem_ofList (cs : List Char) (d : Char) : d ∈ ofList cs ↔ d ∈ cs := by
  simp [ofList]

def union (S T : Alphabet) : Alphabet := S.insertAll T.symbols

@[simp] theorem mem_union (S T : Alphabet) (c : Char) :
    c ∈ S.union T ↔ c ∈ T ∨ c ∈ S :=
  mem_insertAll S T.symbols c

/-- The characters of `S` that are not in `T`, in order. -/
def without (S T : Alphabet) : List Char := S.symbols.filter (fun c => !decide (c ∈ T))

@[simp] theorem mem_without (S T : Alphabet) (c : Char) :
    c ∈ S.without T ↔ c ∈ S ∧ ¬ c ∈ T := by
  simp [without, mem_def]

def size (S : Alphabet) : Nat := S.symbols.length

end Alphabet

end FiniteState
