import FiniteState.Table.Basic

/-!
# Well-formed tables

In a well-formed table every entry of a row is the number of a state, so no run over the
alphabet ever gets stuck, and no two states share a name. The alphabet is increasing by
its type.
-/

namespace FiniteState.Table

/-- What every construction promises of its table. -/
structure WellFormed (t : Table) : Prop where
  symbols_ne_nil : t.alphabet.symbols ≠ []
  names_nodup : t.names.Nodup
  length_next : ∀ row ∈ t.rows, row.next.length = t.alphabet.size
  next_lt : ∀ row ∈ t.rows, ∀ s ∈ row.next, s < t.size
  start_lt : t.start < t.size

/-- Some word leads to the state. -/
def LeadsTo (t : Table) (state : Nat) : Prop := ∃ w, t.run? t.start w = some state

theorem leadsTo_start (t : Table) : t.LeadsTo t.start := ⟨[], rfl⟩

/-- One symbol more leads on. -/
theorem LeadsTo.step {t : Table} {state next : Nat} {c : Char} (h : t.LeadsTo state)
    (hc : t.step? state c = some next) : t.LeadsTo next := by
  obtain ⟨w, hw⟩ := h
  refine ⟨w ++ [c], ?_⟩
  rw [run?_append, hw, Option.bind_some, run?_cons, hc]
  rfl

theorem exists_row_of_lt (t : Table) (state : Nat) (h : state < t.size) :
    ∃ row ∈ t.rows, t.next state = row.next := by
  cases hr : t.rows[state]? with
  | none => exact absurd (List.getElem?_eq_none_iff.1 hr) (Nat.not_le.2 h)
  | some row =>
      refine ⟨row, List.mem_of_getElem? hr, ?_⟩
      unfold next
      rw [hr]

private theorem lookup_zip_isSome (c : Char) (cs : List Char) (ns : List Nat)
    (hlen : ns.length = cs.length) :
    ((cs.zip ns).lookup c).isSome = true ↔ c ∈ cs := by
  induction cs generalizing ns with
  | nil => simp
  | cons d cs ih =>
      cases ns with
      | nil => simp at hlen
      | cons n ns =>
          rw [List.zip_cons_cons, List.lookup_cons]
          by_cases h : c = d
          · subst h; simp
          · have hne : (c == d) = false := by simpa using h
            rw [hne, ih ns (by simpa using hlen)]
            simp [h]

private theorem mem_of_lookup_zip (c : Char) (cs : List Char) (ns : List Nat) (n : Nat)
    (h : (cs.zip ns).lookup c = some n) : n ∈ ns := by
  induction cs generalizing ns with
  | nil => simp at h
  | cons d cs ih =>
      cases ns with
      | nil => simp at h
      | cons m ns =>
          rw [List.zip_cons_cons, List.lookup_cons] at h
          split at h
          · simp_all
          · exact List.mem_cons_of_mem m (ih ns h)

namespace WellFormed

variable {t : Table}

/-- Every symbol of the alphabet leads somewhere, and no other symbol does. -/
theorem step?_isSome_iff (ht : t.WellFormed) (state : Nat) (h : state < t.size)
    (c : Char) : (t.step? state c).isSome = true ↔ c ∈ t.alphabet := by
  obtain ⟨row, hrow, hnext⟩ := t.exists_row_of_lt state h
  unfold step?
  rw [hnext]
  exact lookup_zip_isSome c _ _ (ht.length_next row hrow)

theorem lt_of_step? (ht : t.WellFormed) {state next : Nat} (h : state < t.size) {c : Char}
    (hc : t.step? state c = some next) : next < t.size := by
  obtain ⟨row, hrow, hnext⟩ := t.exists_row_of_lt state h
  unfold step? at hc
  rw [hnext] at hc
  exact ht.next_lt row hrow next (mem_of_lookup_zip c _ _ _ hc)

theorem lt_of_run? (ht : t.WellFormed) {state last : Nat} (h : state < t.size)
    {w : List Char} (hw : t.run? state w = some last) : last < t.size := by
  induction w generalizing state with
  | nil =>
      rw [run?_nil, Option.some.injEq] at hw
      exact hw ▸ h
  | cons c w ih =>
      rw [run?_cons] at hw
      obtain ⟨next, hnext, hrest⟩ := Option.bind_eq_some_iff.1 hw
      exact ih (ht.lt_of_step? h hnext) hrest

/-- A word leads somewhere if its characters belong to the alphabet. -/
theorem run?_isSome_iff (ht : t.WellFormed) (state : Nat) (h : state < t.size)
    (w : List Char) :
    (t.run? state w).isSome = true ↔ ∀ c ∈ w, c ∈ t.alphabet := by
  induction w generalizing state with
  | nil => simp
  | cons c w ih =>
      rw [run?_cons, List.forall_mem_cons, ← ht.step?_isSome_iff state h c]
      cases hs : t.step? state c with
      | none => simp
      | some next =>
          rw [Option.bind_some, ih next (ht.lt_of_step? h hs)]
          simp

/-- The words that are read from the start are those over the alphabet. -/
theorem exists_run?_iff (ht : t.WellFormed) (w : List Char) :
    (∃ last, t.run? t.start w = some last) ↔ ∀ c ∈ w, c ∈ t.alphabet := by
  rw [← ht.run?_isSome_iff _ ht.start_lt w, Option.isSome_iff_exists]

theorem lt_of_leadsTo (ht : t.WellFormed) {state : Nat} (h : t.LeadsTo state) :
    state < t.size := by
  obtain ⟨w, hw⟩ := h
  exact ht.lt_of_run? ht.start_lt hw

end WellFormed

end FiniteState.Table
