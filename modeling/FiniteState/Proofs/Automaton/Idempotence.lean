import Mathlib.Data.List.Perm.Basic
import FiniteState.Proofs.Automaton.Canonical

/-!
# Minimising twice

No word tells two states of one block apart, and words tell all states of a minimal table apart.
So the blocks of a minimal table hold one state each, which keeps its name whatever the name looks
like, and minimising only brings the states into another order. Putting the rows of a table into
another order does the same to the states and the transitions of its automaton.
-/

namespace FiniteState

namespace Table

variable {t : Table} {order : List Nat}

/-! ## Another order -/

/-- The state with a number as a row. -/
def rowAt (t : Table) (s : Nat) : Row := ⟨t.name s, t.accepting s, t.next s⟩

/-- The state with a number as a state of the automaton. -/
def stateAt (t : Table) (s : Nat) : State := ⟨t.name s, s == t.start, t.accepting s, none⟩

/-- The row of a state in a table with another order of the states. -/
def rowIn (t : Table) (order : List Nat) (s : Nat) : Row :=
  { t.rowAt s with next := (t.next s).map fun n => order.idxOf n }

/-- The table with its states in another order. -/
def renumber (t : Table) (order : List Nat) : Table :=
  ⟨t.alphabet, order.idxOf t.start, order.map (t.rowIn order)⟩

theorem rows_eq_map (t : Table) : t.rows = (List.range t.size).map t.rowAt := by
  apply List.ext_getElem
  · rw [List.length_map, List.length_range]
    rfl
  · intro s hs hs'
    have hrow := List.getElem?_eq_getElem hs
    rw [List.getElem_map, List.getElem_range, rowAt, name_of_row hrow, accepting_of_row hrow,
      next_of_row hrow]

theorem name_renumber {s : Nat} (hs : s ∈ order) :
    (t.renumber order).name (order.idxOf s) = t.name s := by
  have hrow : (t.renumber order).rows[order.idxOf s]? = some (t.rowIn order s) := by
    rw [renumber, List.getElem?_map, List.getElem?_idxOf hs]
    rfl
  rw [name_of_row hrow]
  rfl

section

variable (ht : t.WellFormed) (horder : order.Perm (List.range t.size))

include ht

theorem states_eq_map : t.toAutomaton.states = (List.range t.size).map t.stateAt := by
  rw [states_toAutomaton ht.names_nodup]
  apply List.ext_getElem?
  intro s
  rw [getElem?_namedStates, rows_eq_map, List.getElem?_map, List.getElem?_map, Option.map_map,
    Nat.zero_add]
  by_cases hs : s < t.size
  · rw [List.getElem?_range hs]
    rfl
  · rw [List.getElem?_eq_none (by simpa using hs)]
    rfl

omit ht in
theorem transitions_eq_flatMap (t : Table) : t.toAutomaton.transitions =
    (List.range t.size).flatMap fun s => t.rowTransitions (t.rowAt s) := by
  have htransitions : t.toAutomaton.transitions = t.rows.flatMap t.rowTransitions := rfl
  rw [htransitions, rows_eq_map, List.flatMap_map]

include horder

theorem states_renumber : (t.renumber order).toAutomaton.states = order.map t.stateAt := by
  have hnodup : order.Nodup := horder.nodup_iff.2 List.nodup_range
  have hstart : t.start ∈ order := horder.mem_iff.2 (List.mem_range.2 ht.start_lt)
  have hnames : (t.renumber order).names.Nodup := by
    have hmap : (t.renumber order).names = order.map fun s => (t.rowAt s).name := by
      rw [names, renumber, List.map_map]
      rfl
    have hperm := horder.map fun s => (t.rowAt s).name
    rw [hmap, hperm.nodup_iff]
    have hrows := ht.names_nodup
    rwa [names, rows_eq_map, List.map_map] at hrows
  have hstates : (t.renumber order).toAutomaton.states =
      namedStates (order.idxOf t.start) 0 (order.map (t.rowIn order)) := states_toAutomaton hnames
  rw [hstates]
  apply List.ext_getElem?
  intro k
  rw [getElem?_namedStates, List.getElem?_map, List.getElem?_map, Option.map_map, Nat.zero_add]
  cases hk : order[k]? with
  | none => rfl
  | some s =>
      -- the place of a state in the order is the number that it gets
      obtain ⟨hlt, rfl⟩ := List.getElem?_eq_some_iff.1 hk
      have hplace : (k == order.idxOf t.start) = (order[k] == t.start) := by
        rw [Bool.eq_iff_iff, beq_iff_eq, beq_iff_eq, ← List.idxOf_inj (List.getElem_mem hlt),
          hnodup.idxOf_getElem]
      simp only [Option.map_some, Function.comp_apply, hplace]
      rfl

theorem perm_states_renumber :
    (t.renumber order).toAutomaton.states.Perm t.toAutomaton.states := by
  rw [states_renumber ht horder, states_eq_map ht]
  exact horder.map _

theorem rowTransitions_renumber {s : Nat} (hs : s < t.size) :
    (t.renumber order).rowTransitions (t.rowIn order s) = t.rowTransitions (t.rowAt s) := by
  have hmem : ∀ p ∈ (t.next s).zip t.alphabet.symbols, p.1 ∈ order := by
    intro p hp
    obtain ⟨row, hrow, hnext⟩ := t.exists_row_of_lt s hs
    have hnext : p.1 ∈ row.next := hnext ▸ (List.of_mem_zip hp).1
    exact horder.mem_iff.2 (List.mem_range.2 (ht.next_lt row hrow _ hnext))
  have hgroups := groupPairs_map_key (f := fun n => order.idxOf n) fun p hp q _ heq =>
    (List.idxOf_inj (hmem p hp)).1 heq
  have hzip : ((t.next s).map fun n => order.idxOf n).zip t.alphabet.symbols =
      ((t.next s).zip t.alphabet.symbols).map (Prod.map (fun n => order.idxOf n) id) := by
    rw [← List.zip_map_left]
  have hrow : (t.renumber order).rowTransitions (t.rowIn order s) =
      (groupPairs (((t.next s).map fun n => order.idxOf n).zip t.alphabet.symbols)).map fun g =>
        ⟨t.name s, (t.renumber order).name g.1, Label.ofSymbols g.2⟩ := rfl
  rw [hrow, hzip, hgroups, List.map_map]
  refine List.map_congr_left fun g hg => ?_
  obtain ⟨p, hp, hkey⟩ := exists_of_mem_groupPairs hg
  rw [Function.comp_apply, Prod.map_fst, name_renumber (hkey ▸ hmem p hp)]
  rfl

theorem perm_transitions_renumber :
    (t.renumber order).toAutomaton.transitions.Perm t.toAutomaton.transitions := by
  have htransitions : (t.renumber order).toAutomaton.transitions =
      order.flatMap fun s => t.rowTransitions (t.rowAt s) := by
    have hflat : (t.renumber order).toAutomaton.transitions =
        (order.map (t.rowIn order)).flatMap (t.renumber order).rowTransitions := rfl
    rw [hflat, List.flatMap_map]
    refine List.flatMap_congr fun s hs => ?_
    exact rowTransitions_renumber ht horder (List.mem_range.1 (horder.mem_iff.1 hs))
  rw [htransitions, transitions_eq_flatMap]
  exact horder.flatMap_right _

end

/-! ## Single states -/

/-- No block of a minimal table has two states. -/
theorem Minimal.exists_eq_singleton (h : t.Minimal) (ht : t.WellFormed) {b : Block}
    (hb : b ∈ t.blocks) : ∃ s, b = [s] := by
  have hblocks := partition_blocks ht
  have hnodup := (List.nodup_flatten.1 hblocks.nodup).1 b hb
  have hlt : ∀ s ∈ b, s < t.size := fun s hs =>
    ht.lt_of_leadsTo ((hblocks.mem_iff s).1 (List.mem_flatten.2 ⟨b, hb, hs⟩))
  match b, hblocks.ne_nil b hb with
  | [s], _ => exact ⟨s, rfl⟩
  | s :: r :: rest, _ =>
      have heq : s = r := h.apart s (hlt s (by simp)) r (hlt r (by simp))
        (alike_of_mem_blocks ht hb (by simp) (by simp))
      simp [heq] at hnodup

theorem eq_map_flatten {blocks : List Block} (h : ∀ b ∈ blocks, ∃ s, b = [s]) :
    blocks = blocks.flatten.map fun s => [s] := by
  induction blocks with
  | nil => rfl
  | cons b blocks ih =>
      obtain ⟨⟨s, rfl⟩, hrest⟩ := List.forall_mem_cons.1 h
      rw [List.flatten_cons, List.singleton_append, List.map_cons, ← ih hrest]

/-- The blocks of a minimal table hold one state each. -/
theorem exists_blocks_eq (ht : t.WellFormed) (h : t.Minimal) :
    ∃ order : List Nat, order.Perm (List.range t.size) ∧ t.blocks = order.map fun s => [s] := by
  have hblocks := partition_blocks ht
  refine ⟨t.blocks.flatten, ?_, eq_map_flatten fun b hb => h.exists_eq_singleton ht hb⟩
  refine (List.perm_ext_iff_of_nodup hblocks.nodup List.nodup_range).2 fun s => ?_
  rw [List.mem_range, hblocks.mem_iff]
  exact ⟨ht.lt_of_leadsTo, h.reached s⟩

theorem blockOf_singles (order : List Nat) (s : Nat) :
    blockOf (order.map fun s => [s]) s = order.idxOf s := by
  rw [blockOf, List.findIdx_map, List.idxOf]
  congr 1
  funext r
  rw [Function.comp_apply, Bool.eq_iff_iff, List.contains_iff_mem, List.mem_singleton, beq_iff_eq,
    eq_comm]

theorem blockNames_singles (t : Table) (taken : List String) (order : List Nat) :
    t.blockNames taken (order.map fun s => [s]) = order.map t.name := by
  induction order with
  | nil => rfl
  | cons s order ih => rw [List.map_cons, blockNames, ih, List.map_cons]

/-- A state that is alone in its block keeps its row. -/
theorem quotient_singles (t : Table) (order : List Nat) :
    t.quotient (order.map fun s => [s]) = t.renumber order := by
  have hrow : ∀ s, t.blockRow (order.map fun s => [s]) [s] (t.name s) = t.rowIn order s := by
    intro s
    have hplace : blockOf (order.map fun s => [s]) = fun n => order.idxOf n :=
      funext (blockOf_singles order)
    rw [blockRow, signature, rowIn, hplace]
    simp [rowAt]
  rw [quotient, renumber, blockOf_singles, blockNames_singles, List.zipWith_map_left,
    List.zipWith_map_right, List.zipWith_self]
  simp only [hrow]

/-- Minimising a minimal table brings the states into another order. -/
theorem exists_minimise_eq (ht : t.WellFormed) (h : t.Minimal) :
    ∃ order : List Nat, order.Perm (List.range t.size) ∧ t.minimise = t.renumber order := by
  obtain ⟨order, horder, hblocks⟩ := exists_blocks_eq ht h
  exact ⟨order, horder, by rw [minimise, hblocks, quotient_singles]⟩

end Table

namespace Automaton

/-- Minimising a complete deterministic automaton twice gives the same states, with the names and
flags that they have after the first time, and the same transitions: only the order of the states
and of the transitions may be another. -/
theorem minimise_minimise (a : Automaton) :
    match a.validate none with
    | .error d => a.minimise = .error d
    | .ok _ => ∃ m n, a.minimise = .ok m ∧ m.minimise = .ok n ∧ n.states.Perm m.states ∧
        n.transitions.Perm m.transitions := by
  cases hS : a.validate none with
  | error d => exact minimise_eq_error hS
  | ok S =>
      have h := (validate_none_eq_ok_iff a S).1 hS
      have ht := h.valid_tableOver
      have hminimal := Table.minimal_minimise ht.toWellFormed
      have hwf := ht.minimise.toWellFormed
      obtain ⟨order, horder, heq⟩ := Table.exists_minimise_eq hwf hminimal
      refine ⟨_, _, h.minimise_eq, ?_, Table.perm_states_renumber hwf horder,
        Table.perm_transitions_renumber hwf horder⟩
      rw [minimise, ht.minimise.table?_toAutomaton, ← heq]

end Automaton

end FiniteState
