import Mathlib.Data.List.Nodup
import FiniteState.Proofs.Alphabet
import FiniteState.Table.WellFormed

/-!
# Looking things up in a table

What is known of a state of a table is known from its row. The row of every construction
is a list `S.symbols.map f`, and a symbol then leads to its value under `f`.
-/

namespace FiniteState

namespace Table

variable {t : Table} {i : Nat} {row : Row}

theorem name_of_row (h : t.rows[i]? = some row) : t.name i = row.name := by
  rw [name, h]

theorem accepting_of_row (h : t.rows[i]? = some row) : t.accepting i = row.accepting := by
  rw [accepting, h]

theorem next_of_row (h : t.rows[i]? = some row) : t.next i = row.next := by
  rw [next, h]

theorem exists_row (hi : i < t.size) : ∃ row, t.rows[i]? = some row :=
  ⟨_, List.getElem?_eq_getElem hi⟩

theorem getElem?_names (t : Table) (i : Nat) (p : String) :
    t.names[i]? = some p ↔ ∃ row, t.rows[i]? = some row ∧ row.name = p := by
  rw [names, List.getElem?_map, Option.map_eq_some_iff]

theorem getElem?_names_of_lt (hi : i < t.size) : t.names[i]? = some (t.name i) := by
  obtain ⟨row, hrow⟩ := exists_row hi
  exact (getElem?_names t i _).2 ⟨row, hrow, (name_of_row hrow).symm⟩

/-- Names tell states apart. -/
theorem WellFormed.name_inj (ht : t.WellFormed) {j : Nat} (hi : i < t.size) (hj : j < t.size)
    (h : t.name i = t.name j) : i = j := by
  have hni := getElem?_names_of_lt hi
  have hnj := getElem?_names_of_lt hj
  rw [← h] at hnj
  obtain ⟨hlt, hni⟩ := List.getElem?_eq_some_iff.1 hni
  obtain ⟨hlt', hnj⟩ := List.getElem?_eq_some_iff.1 hnj
  exact (List.Nodup.getElem_inj_iff ht.names_nodup).1 (hni.trans hnj.symm)

theorem lookup_zip_map {β : Type} (f : Char → β) (c : Char) (cs : List Char) :
    (cs.zip (cs.map f)).lookup c = if c ∈ cs then some (f c) else none := by
  induction cs with
  | nil => rfl
  | cons d cs ih =>
      rw [List.map_cons, List.zip_cons_cons, List.lookup_cons, ih]
      by_cases h : c = d
      · subst h
        simp
      · have hne : (c == d) = false := by simpa using h
        rw [hne]
        simp [h]

theorem step?_of_next {f : Char → Nat} (h : t.next i = t.alphabet.symbols.map f) (c : Char) :
    t.step? i c = if c ∈ t.alphabet then some (f c) else none := by
  rw [step?, h, lookup_zip_map]
  rfl

/-- The entries of a row are what the symbols lead to. -/
theorem WellFormed.exists_next_eq_map (ht : t.WellFormed) (hi : i < t.size) :
    ∃ f : Char → Nat, t.next i = t.alphabet.symbols.map f := by
  obtain ⟨row, hrow, hnext⟩ := t.exists_row_of_lt i hi
  have hlength := ht.length_next row hrow
  rw [hnext]
  refine ⟨fun c => row.next.getD (t.alphabet.symbols.idxOf c) 0, ?_⟩
  apply List.ext_getElem
  · rw [List.length_map]
    exact hlength
  · intro k hk hk'
    rw [List.getElem_map, List.Nodup.idxOf_getElem t.alphabet.nodup_symbols,
      List.getD_eq_getElem?_getD, List.getElem?_eq_getElem hk, Option.getD_some]

/-! ## Verdicts -/

/-- What the table says of a word that is read from a state on. -/
def verdictFrom (t : Table) (state : Nat) (w : List Char) : Verdict :=
  match t.run? state w with
  | none => .crash
  | some last => if t.accepting last then .accept else .reject

theorem verdict_eq_verdictFrom (t : Table) (w : List Char) :
    t.verdict w = t.verdictFrom t.start w := rfl

theorem verdictFrom_nil (t : Table) (state : Nat) :
    t.verdictFrom state [] = if t.accepting state then .accept else .reject := rfl

theorem verdictFrom_append (t : Table) {state last : Nat} {v : List Char}
    (h : t.run? state v = some last) (w : List Char) :
    t.verdictFrom state (v ++ w) = t.verdictFrom last w := by
  rw [verdictFrom, verdictFrom, run?_append, h]
  rfl

theorem verdictFrom_cons (t : Table) {state next : Nat} {c : Char}
    (h : t.step? state c = some next) (w : List Char) :
    t.verdictFrom state (c :: w) = t.verdictFrom next w := by
  rw [verdictFrom, verdictFrom, run?_cons, h]
  rfl

theorem verdictFrom_eq_accept_iff (t : Table) (state : Nat) (w : List Char) :
    t.verdictFrom state w = .accept ↔
      ∃ last, t.run? state w = some last ∧ t.accepting last = true := by
  rw [verdictFrom]
  cases hw : t.run? state w with
  | none => simp
  | some last =>
      by_cases h : t.accepting last = true
      · simp [h]
      · simp [h]

/-- A run gets stuck on a character outside of the alphabet, and on no other. -/
theorem WellFormed.verdictFrom_eq_crash_iff (ht : t.WellFormed) {state : Nat}
    (hstate : state < t.size) (w : List Char) :
    t.verdictFrom state w = .crash ↔ ∃ c ∈ w, ¬ c ∈ t.alphabet := by
  have hrun := ht.run?_isSome_iff state hstate w
  have hnot : (∃ c ∈ w, ¬ c ∈ t.alphabet) ↔ ¬ (t.run? state w).isSome = true := by
    rw [hrun]
    simp
  rw [hnot, verdictFrom]
  cases t.run? state w with
  | none => simp
  | some last =>
      by_cases h : t.accepting last = true
      · simp [h]
      · simp [h]

end Table

end FiniteState
