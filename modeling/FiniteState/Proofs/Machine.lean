import Mathlib.Data.List.Induction
import Mathlib.Data.Set.Card
import FiniteState.BreadthFirst.Reachability
import FiniteState.Machine
import FiniteState.Proofs.Table.Lookup

/-!
# The table of a machine

A machine that cannot leave a finite set of states is turned into a table by a search. The
table is well formed, its states are the states of the machine that words over the alphabet
lead to, each once, and running it is running the machine. Names play no part in this: they
only have to be different, and priming sees to that.
-/

namespace FiniteState

/-- A list without repetitions is as long as the set of its members is large. -/
theorem ncard_setOf_mem {α : Type} {l : List α} (h : l.Nodup) : {x | x ∈ l}.ncard = l.length := by
  classical
  rw [← List.coe_toFinset, Set.ncard_coe_finset, List.toFinset_card_of_nodup h]

namespace Machine

variable {α : Type} {m : Machine α} {S : Alphabet}

theorem run_append_singleton (m : Machine α) (w : List Char) (c : Char) :
    m.run (w ++ [c]) = m.step (m.run w) c := by
  rw [run, run, runFrom_append]
  rfl

/-- The machine cannot leave a set of at most `bound` states over the symbols of `S`. -/
def Within (m : Machine α) (S : Alphabet) (bound : Nat) : Prop :=
  ∃ univ : List α, m.start ∈ univ ∧ (∀ q ∈ univ, ∀ c ∈ S, m.step q c ∈ univ) ∧
    univ.length ≤ bound

/-- The states of the machine as the search wants to know them. -/
theorem Within.endsBy {bound : Nat} (h : m.Within S bound) :
    BreadthFirst.EndsBy (fun q => S.symbols.map fun c => (c, m.step q c)) bound [m.start] := by
  obtain ⟨univ, hstart, hstep, hbound⟩ := h
  refine ⟨List.nodup_singleton _, univ, List.forall_mem_singleton.2 hstart, ?_, hbound⟩
  intro q hq e he
  obtain ⟨c, hc, rfl⟩ := List.mem_map.1 he
  exact hstep q hq c hc

theorem length_namesOf (m : Machine α) (nodes : List α) :
    (m.namesOf nodes).length = nodes.length := by
  rw [namesOf, Text.length_distinct, List.length_map]

variable [DecidableEq α] {bound : Nat}

theorem found_eq_cons (m : Machine α) (S : Alphabet) (bound : Nat) :
    ∃ more, m.found S bound = m.start :: more :=
  BreadthFirst.nodes_eq_append _ bound [m.start]

theorem nodup_found (h : m.Within S bound) : (m.found S bound).Nodup :=
  h.endsBy.nodup_nodes

/-- The states found are those that words over the alphabet lead to. -/
theorem mem_found_iff (h : m.Within S bound) (q : α) :
    q ∈ m.found S bound ↔ ∃ w, (∀ c ∈ w, c ∈ S) ∧ m.run w = q := by
  refine (h.endsBy.mem_nodes_iff q).trans ?_
  constructor
  · intro hq
    obtain ⟨s, hs, labels, hw⟩ := hq
    obtain rfl := List.mem_singleton.1 hs
    induction hw with
    | nil => exact ⟨[], by simp, rfl⟩
    | snoc _ he ih =>
        obtain ⟨w, hw, hrun⟩ := ih
        obtain ⟨c, hc, heq⟩ := List.mem_map.1 he
        obtain ⟨rfl, rfl⟩ := Prod.mk.inj heq
        refine ⟨w ++ [c], ?_, ?_⟩
        · intro d hd
          rcases List.mem_append.1 hd with hd | hd
          · exact hw d hd
          · exact List.mem_singleton.1 hd ▸ hc
        · rw [run_append_singleton, hrun]
  · intro hq
    obtain ⟨w, hw, rfl⟩ := hq
    induction w using List.reverseRecOn with
    | nil => exact BreadthFirst.reaches_start _ _ _ List.mem_cons_self
    | append_singleton w c ih =>
        have hreach := ih fun d hd => hw d (List.mem_append_left _ hd)
        have hc : c ∈ S := hw c (List.mem_append_right _ List.mem_cons_self)
        rw [run_append_singleton]
        exact hreach.next (List.mem_map_of_mem (f := fun c => (c, m.step (m.run w) c)) hc)

theorem step_mem_found (h : m.Within S bound) {q : α} (hq : q ∈ m.found S bound) {c : Char}
    (hc : c ∈ S) : m.step q c ∈ m.found S bound := by
  obtain ⟨w, hw, rfl⟩ := (mem_found_iff h q).1 hq
  refine (mem_found_iff h _).2 ⟨w ++ [c], ?_, run_append_singleton m w c⟩
  intro d hd
  rcases List.mem_append.1 hd with hd | hd
  · exact hw d hd
  · exact List.mem_singleton.1 hd ▸ hc

/-- Without symbols a search stays at the start. -/
theorem found_of_symbols_eq_nil (m : Machine α) (h : S.symbols = []) (bound : Nat) :
    m.found S bound = [m.start] := by
  have hnext : (fun q => S.symbols.map fun c => (c, m.step q c)) = fun _ => [] := by
    funext q
    rw [h, List.map_nil]
  rw [found, visits, hnext]
  cases bound with
  | zero => rfl
  | succ n => cases n <;> rfl

/-! ## The rows -/

theorem length_rows (m : Machine α) (S : Alphabet) (bound : Nat) :
    (m.table S bound).rows.length = (m.found S bound).length := by
  rw [table, rowsOf, List.length_zipWith, length_namesOf, Nat.min_self]

theorem names_table (m : Machine α) (S : Alphabet) (bound : Nat) :
    (m.table S bound).names = m.namesOf (m.found S bound) := by
  apply List.ext_getElem
  · rw [Table.names, List.length_map, length_rows, length_namesOf]
  · intro i hi hi'
    simp [Table.names, table, rowsOf]

theorem exists_row_of_getElem? {i : Nat} {q : α} (hq : (m.found S bound)[i]? = some q) :
    ∃ row, (m.table S bound).rows[i]? = some row ∧ row.accepting = m.accepting q ∧
      row.next = S.symbols.map fun c => (m.found S bound).idxOf (m.step q c) := by
  have hi : i < (m.namesOf (m.found S bound)).length := by
    rw [length_namesOf]
    exact (List.getElem?_eq_some_iff.1 hq).1
  refine ⟨⟨(m.namesOf (m.found S bound))[i], m.accepting q,
    S.symbols.map fun c => (m.found S bound).idxOf (m.step q c)⟩, ?_, rfl, rfl⟩
  rw [table, rowsOf, List.getElem?_zipWith, hq, List.getElem?_eq_getElem hi]

theorem getElem?_idxOf_step (h : m.Within S bound) {q : α} (hq : q ∈ m.found S bound)
    {c : Char} (hc : c ∈ S) :
    (m.found S bound)[(m.found S bound).idxOf (m.step q c)]? = some (m.step q c) :=
  List.getElem?_idxOf (step_mem_found h hq hc)

/-- The table of a machine is well formed if there is something to read. -/
theorem wellFormed_table (h : m.Within S bound) (hS : S.symbols ≠ []) :
    (m.table S bound).WellFormed where
  symbols_ne_nil := hS
  names_nodup := by
    rw [names_table]
    exact Text.nodup_distinct _ _
  length_next := by
    intro row hrow
    obtain ⟨i, hi⟩ := List.getElem?_of_mem hrow
    have hlt := (List.getElem?_eq_some_iff.1 hi).1
    rw [length_rows] at hlt
    obtain ⟨row', hrow', -, hnext⟩ :=
      exists_row_of_getElem? (m := m) (List.getElem?_eq_getElem hlt)
    rw [hi] at hrow'
    cases hrow'
    rw [hnext, List.length_map]
    rfl
  next_lt := by
    intro row hrow s hs
    obtain ⟨i, hi⟩ := List.getElem?_of_mem hrow
    have hlt := (List.getElem?_eq_some_iff.1 hi).1
    rw [length_rows] at hlt
    obtain ⟨row', hrow', -, hnext⟩ :=
      exists_row_of_getElem? (m := m) (List.getElem?_eq_getElem hlt)
    rw [hi] at hrow'
    cases hrow'
    rw [hnext] at hs
    obtain ⟨c, hc, rfl⟩ := List.mem_map.1 hs
    rw [Table.size, length_rows]
    exact List.idxOf_lt_length_iff.2 (step_mem_found h (List.getElem_mem hlt) hc)
  start_lt := by
    obtain ⟨more, hmore⟩ := found_eq_cons m S bound
    change 0 < (m.table S bound).rows.length
    rw [length_rows, hmore]
    exact Nat.succ_pos _

/-! ## Runs -/

/-- Running the table is running the machine. -/
theorem getElem?_of_run? (h : m.Within S bound) {i j : Nat} {q : α} {w : List Char}
    (hq : (m.found S bound)[i]? = some q) (hw : (m.table S bound).run? i w = some j) :
    (m.found S bound)[j]? = some (m.runFrom q w) := by
  induction w generalizing i q with
  | nil =>
      rw [Table.run?_nil, Option.some.injEq] at hw
      exact hw ▸ hq
  | cons c w ih =>
      obtain ⟨row, hrow, -, hnext⟩ := exists_row_of_getElem? hq
      rw [Table.run?_cons] at hw
      obtain ⟨k, hk, hrest⟩ := Option.bind_eq_some_iff.1 hw
      rw [Table.step?_of_next ((Table.next_of_row hrow).trans hnext)] at hk
      by_cases hc : c ∈ S
      · have hkeq : (m.found S bound).idxOf (m.step q c) = k := by
          have hc' : c ∈ (m.table S bound).alphabet := hc
          rwa [if_pos hc', Option.some.injEq] at hk
        refine ih ?_ hrest
        rw [← hkeq]
        exact getElem?_idxOf_step h (List.mem_of_getElem? hq) hc
      · have hc' : ¬ c ∈ (m.table S bound).alphabet := hc
        rw [if_neg hc'] at hk
        cases hk

theorem accepting_of_getElem? {i : Nat} {q : α} (hq : (m.found S bound)[i]? = some q) :
    (m.table S bound).accepting i = m.accepting q := by
  obtain ⟨row, hrow, haccepting, -⟩ := exists_row_of_getElem? hq
  rw [Table.accepting_of_row hrow, haccepting]

theorem getElem?_start (m : Machine α) (S : Alphabet) (bound : Nat) :
    (m.found S bound)[(m.table S bound).start]? = some m.start := by
  obtain ⟨more, hmore⟩ := found_eq_cons m S bound
  rw [hmore]
  rfl

/-- The table of a machine accepts the words over the alphabet that the machine accepts. -/
theorem verdict_table_eq_accept_iff (h : m.Within S bound) (hS : S.symbols ≠ [])
    (w : List Char) : (m.table S bound).verdict w = .accept ↔
      (∀ c ∈ w, c ∈ S) ∧ m.accepts w = true := by
  have ht := wellFormed_table h hS
  have hrun : ∀ j, (m.table S bound).run? (m.table S bound).start w = some j →
      (m.table S bound).accepting j = m.accepts w := fun j hj =>
    accepting_of_getElem? (getElem?_of_run? h (getElem?_start m S bound) hj)
  rw [Table.verdict_eq_verdictFrom, Table.verdictFrom_eq_accept_iff]
  constructor
  · intro hw
    obtain ⟨j, hj, haccepting⟩ := hw
    exact ⟨(ht.exists_run?_iff w).1 ⟨j, hj⟩, (hrun j hj).symm.trans haccepting⟩
  · intro hw
    obtain ⟨j, hj⟩ := (ht.exists_run?_iff w).2 hw.1
    exact ⟨j, hj, (hrun j hj).trans hw.2⟩

/-- Words lead to all states of the table of a machine. -/
theorem leadsTo_table (h : m.Within S bound) (hS : S.symbols ≠ []) {i : Nat}
    (hi : i < (m.table S bound).size) : (m.table S bound).LeadsTo i := by
  have ht := wellFormed_table h hS
  rw [Table.size, length_rows] at hi
  obtain ⟨w, hw, hrun⟩ := (mem_found_iff h _).1 (List.getElem_mem hi)
  obtain ⟨j, hj⟩ := (ht.exists_run?_iff w).2 hw
  have hget := getElem?_of_run? h (getElem?_start m S bound) hj
  obtain ⟨hlt, hget⟩ := List.getElem?_eq_some_iff.1 hget
  have hij : i = j := (List.Nodup.getElem_inj_iff (nodup_found h)).1 (hrun.symm.trans hget.symm)
  exact ⟨w, hij ▸ hj⟩

/-- Words lead to one state of the table if and only if they lead to one state of the machine. -/
theorem run?_table_eq_iff (h : m.Within S bound) (hS : S.symbols ≠ []) {v w : List Char}
    (hv : ∀ c ∈ v, c ∈ S) (hw : ∀ c ∈ w, c ∈ S) :
    (m.table S bound).run? (m.table S bound).start v =
      (m.table S bound).run? (m.table S bound).start w ↔ m.run v = m.run w := by
  have ht := wellFormed_table h hS
  obtain ⟨i, hi⟩ := (ht.exists_run?_iff v).2 hv
  obtain ⟨j, hj⟩ := (ht.exists_run?_iff w).2 hw
  have hget := getElem?_of_run? h (getElem?_start m S bound) hi
  have hget' := getElem?_of_run? h (getElem?_start m S bound) hj
  rw [hi, hj, Option.some.injEq]
  constructor
  · rintro rfl
    exact Option.some.inj (hget.symm.trans hget')
  · intro heq
    have hlt := (List.getElem?_eq_some_iff.1 hget).1
    rw [← List.getElem?_inj hlt (nodup_found h), hget, hget', ← run, ← run, heq]

/-- The table has a row for each state of the machine that words over the alphabet lead to. -/
theorem size_table (h : m.Within S bound) :
    (m.table S bound).size = (m.run '' {w | ∀ c ∈ w, c ∈ S}).ncard := by
  have hfound : m.run '' {w | ∀ c ∈ w, c ∈ S} = {q | q ∈ m.found S bound} :=
    Set.ext fun q => (mem_found_iff h q).symm
  rw [hfound, ncard_setOf_mem (nodup_found h), Table.size, length_rows]

end Machine

end FiniteState
