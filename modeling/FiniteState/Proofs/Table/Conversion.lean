import Mathlib.Data.List.Nodup
import FiniteState.Proofs.Automaton.Validation
import FiniteState.Proofs.Grouping
import FiniteState.Proofs.Table.Lookup

/-!
# Tables as automata

The automaton of a valid table is complete and deterministic over the alphabet of the table,
and reading its rows off again gives the table back. So nothing is lost between the steps of
a construction, each of which ends in an automaton.

A transition of the automaton carries all symbols that lead from one state to another. The
symbols of a row are thereby divided among its transitions: the one that holds a symbol `c`
goes where `c` leads, and `mem_rowTransitions_iff` names it by `c`.
-/

namespace FiniteState

theorem Label.tokens_ofSymbols (cs : List Char) :
    (Label.ofSymbols cs).tokens = (Alphabet.ofList cs).symbols.map String.singleton := rfl

theorem Label.mem_symbols_ofSymbols (cs : List Char) (c : Char) :
    c ∈ (Label.ofSymbols cs).symbols ↔ c ≠ epsilonChar ∧ c ∈ cs := by
  rw [Label.mem_symbols_iff, Label.tokens_ofSymbols,
    List.mem_map_of_injective singleton_injective, ← Alphabet.mem_def, Alphabet.mem_ofList]

namespace Table

/-- A well-formed table over symbols that are read. -/
structure Valid (t : Table) : Prop extends t.WellFormed where
  epsilon_not_mem : ¬ epsilonChar ∈ t.alphabet

variable {t : Table} {row : Row}

/-! ## States -/

theorem stateNames_namedStates (start i : Nat) (rows : List Row) :
    stateNames (namedStates start i rows) = rows.map Row.name := by
  induction rows generalizing i with
  | nil => rfl
  | cons row rows ih => rw [namedStates, stateNames_cons, ih, List.map_cons]

theorem getElem?_namedStates (start i : Nat) (rows : List Row) (k : Nat) :
    (namedStates start i rows)[k]? =
      rows[k]?.map fun row => ⟨row.name, i + k == start, row.accepting, none⟩ := by
  induction rows generalizing i k with
  | nil => rfl
  | cons row rows ih =>
      rw [namedStates]
      cases k with
      | zero => rfl
      | succ k =>
          rw [List.getElem?_cons_succ, List.getElem?_cons_succ, ih, Nat.add_right_comm,
            Nat.add_assoc]

theorem filter_starting_namedStates (start i : Nat) (rows : List Row) :
    ((namedStates start i rows).filter State.starting).length =
      if i ≤ start ∧ start < i + rows.length then 1 else 0 := by
  induction rows generalizing i with
  | nil =>
      have hnot : ¬ (i ≤ start ∧ start < i + ([] : List Row).length) := by
        rw [List.length_nil]
        omega
      rw [if_neg hnot]
      rfl
  | cons row rows ih =>
      rw [namedStates, List.filter_cons]
      by_cases h : i = start
      · subst h
        simp [ih]
      · have hbeq : (i == start) = false := beq_false_of_ne h
        have hiff : (i + 1 ≤ start ∧ start < i + 1 + rows.length) ↔
            (i ≤ start ∧ start < i + (row :: rows).length) := by
          rw [List.length_cons]
          omega
        simp only [hbeq, Bool.false_eq_true, if_false, ih, hiff]

theorem findIdx_starting_namedStates (start i : Nat) (rows : List Row) (hi : i ≤ start)
    (hlt : start < i + rows.length) :
    (namedStates start i rows).findIdx State.starting = start - i := by
  induction rows generalizing i with
  | nil =>
      rw [List.length_nil] at hlt
      omega
  | cons row rows ih =>
      rw [List.length_cons] at hlt
      rw [namedStates, List.findIdx_cons]
      by_cases h : i = start
      · subst h
        simp
      · have hbeq : (i == start) = false := beq_false_of_ne h
        simp only [hbeq, cond_false]
        rw [ih (i + 1) (by omega) (by omega)]
        omega

/-- If names are different, none is overwritten. -/
theorem states_toAutomaton (h : t.names.Nodup) :
    t.toAutomaton.states = namedStates t.start 0 t.rows := by
  apply Automaton.states_ofLists
  rw [stateNames_namedStates]
  exact h

theorem names_toAutomaton (h : t.names.Nodup) : t.toAutomaton.names = t.names := by
  rw [Automaton.names, states_toAutomaton h, stateNames_namedStates]
  rfl

theorem length_states_toAutomaton (ht : t.WellFormed) : t.toAutomaton.states.length = t.size := by
  rw [← List.length_map State.name, size, ← List.length_map Row.name]
  exact congrArg List.length (names_toAutomaton ht.names_nodup)

theorem length_starts_toAutomaton (ht : t.WellFormed) : t.toAutomaton.starts.length = 1 := by
  have hlt : t.start < 0 + t.rows.length := by
    rw [Nat.zero_add]
    exact ht.start_lt
  rw [Automaton.starts, states_toAutomaton ht.names_nodup, filter_starting_namedStates,
    if_pos ⟨Nat.zero_le _, hlt⟩]

/-! ## Transitions -/

variable {f : Char → Nat}

theorem mem_rowTransitions_iff (hf : row.next = t.alphabet.symbols.map f) (u : Transition) :
    u ∈ t.rowTransitions row ↔ ∃ c ∈ t.alphabet, u = ⟨row.name, t.name (f c),
      Label.ofSymbols (t.alphabet.symbols.filter fun d => f d = f c)⟩ := by
  rw [rowTransitions, List.mem_map, hf, groupPairs_zip_map]
  constructor
  · intro hu
    obtain ⟨⟨key, vs⟩, hg, rfl⟩ := hu
    obtain ⟨⟨c, hc, rfl⟩, rfl⟩ := (mem_groupOn_iff f _ key vs).1 hg
    exact ⟨c, hc, rfl⟩
  · intro hu
    obtain ⟨c, hc, rfl⟩ := hu
    exact ⟨(f c, _), (mem_groupOn_iff f _ _ _).2 ⟨⟨c, hc, rfl⟩, rfl⟩, rfl⟩

/-- The symbols on the transitions of a row, group by group. -/
def groupedSymbols (t : Table) (row : Row) : List Char :=
  (groupPairs (row.next.zip t.alphabet.symbols)).flatMap fun g => (Alphabet.ofList g.2).symbols

theorem tokens_rowTransitions (t : Table) (row : Row) :
    ((t.rowTransitions row).flatMap fun u => u.label.tokens) =
      (t.groupedSymbols row).map String.singleton := by
  rw [rowTransitions, List.flatMap_map, groupedSymbols, List.map_flatMap]
  rfl

theorem mem_groupedSymbols (hf : row.next = t.alphabet.symbols.map f) (c : Char) :
    c ∈ t.groupedSymbols row ↔ c ∈ t.alphabet := by
  rw [groupedSymbols, hf, groupPairs_zip_map, List.mem_flatMap]
  constructor
  · intro hc
    obtain ⟨⟨key, vs⟩, hg, hvs⟩ := hc
    obtain ⟨-, rfl⟩ := (mem_groupOn_iff f _ key vs).1 hg
    have hmem := (Alphabet.mem_ofList _ c).1 hvs
    exact (List.mem_filter.1 hmem).1
  · intro hc
    refine ⟨(f c, _), (mem_groupOn_iff f _ _ _).2 ⟨⟨c, hc, rfl⟩, rfl⟩, ?_⟩
    refine (Alphabet.mem_ofList _ c).2 (List.mem_filter.2 ⟨hc, ?_⟩)
    exact decide_eq_true rfl

theorem nodup_groupedSymbols (hf : row.next = t.alphabet.symbols.map f) :
    (t.groupedSymbols row).Nodup := by
  have hgroups := groups_groupPairs (row.next.zip t.alphabet.symbols)
  have hkey : ∀ g ∈ groupPairs (row.next.zip t.alphabet.symbols),
      ∀ c ∈ (Alphabet.ofList g.2).symbols, f c = g.1 := by
    intro g hg c hc
    rw [hf, groupPairs_zip_map] at hg
    have hmem := (Alphabet.mem_ofList _ c).1 hc
    rw [((mem_groupOn_iff f _ g.1 g.2).1 hg).2] at hmem
    exact of_decide_eq_true (List.mem_filter.1 hmem).2
  rw [groupedSymbols, List.nodup_flatMap]
  refine ⟨fun g _ => Alphabet.nodup_symbols _, ?_⟩
  have hkeys := List.pairwise_map.1 hgroups.nodup
  refine List.Pairwise.imp_of_mem ?_ hkeys
  intro g g' hg hg' hne c hc hc'
  exact hne ((hkey g hg c hc).symm.trans (hkey g' hg' c hc'))

/-- Only the row of a name gives transitions that leave it. -/
theorem filter_source_flatMap (t : Table) (rows : List Row) (h : (rows.map Row.name).Nodup)
    (hrow : row ∈ rows) :
    (rows.flatMap t.rowTransitions).filter (fun u => u.source == row.name) =
      t.rowTransitions row := by
  have hsource : ∀ r, ∀ u ∈ t.rowTransitions r, u.source = r.name := by
    intro r u hu
    obtain ⟨g, -, rfl⟩ := List.mem_map.1 hu
    rfl
  have hself : ∀ r, r.name = row.name →
      (t.rowTransitions r).filter (fun u => u.source == row.name) = t.rowTransitions r := by
    intro r hr
    refine List.filter_eq_self.2 fun u hu => beq_iff_eq.2 ?_
    exact (hsource r u hu).trans hr
  have hnone : ∀ r, r.name ≠ row.name →
      (t.rowTransitions r).filter (fun u => u.source == row.name) = [] := by
    intro r hr
    refine List.filter_eq_nil_iff.2 fun u hu hbeq => hr ?_
    exact (hsource r u hu).symm.trans (beq_iff_eq.1 hbeq)
  induction rows with
  | nil => cases hrow
  | cons r rows ih =>
      obtain ⟨hr, hrows⟩ := List.nodup_cons.1 h
      rw [List.flatMap_cons, List.filter_append]
      rcases List.mem_cons.1 hrow with rfl | hmem
      · have hrest : (rows.flatMap t.rowTransitions).filter (fun u => u.source == row.name) =
            [] := by
          rw [List.filter_flatMap, List.flatMap_eq_nil_iff]
          exact fun s hs => hnone s fun heq => hr (heq ▸ List.mem_map_of_mem hs)
        rw [hself row rfl, hrest, List.append_nil]
      · have hne : r.name ≠ row.name := fun heq => hr (heq ▸ List.mem_map_of_mem hmem)
        rw [hnone r hne, ih hrows hmem, List.nil_append]

theorem outgoing_toAutomaton (ht : t.WellFormed) (hrow : row ∈ t.rows) :
    t.toAutomaton.outgoing row.name = t.rowTransitions row :=
  filter_source_flatMap t t.rows ht.names_nodup hrow

theorem mem_transitions_toAutomaton (t : Table) (u : Transition) :
    u ∈ t.toAutomaton.transitions ↔ ∃ row ∈ t.rows, u ∈ t.rowTransitions row :=
  List.mem_flatMap

/-! ## Validation -/

theorem exists_next_map_of_mem (ht : t.WellFormed) (hrow : row ∈ t.rows) :
    ∃ f : Char → Nat, row.next = t.alphabet.symbols.map f ∧ ∀ c ∈ t.alphabet, f c < t.size := by
  obtain ⟨i, hi⟩ := List.getElem?_of_mem hrow
  have hlt : i < t.size := (List.getElem?_eq_some_iff.1 hi).1
  obtain ⟨f, hf⟩ := ht.exists_next_eq_map hlt
  rw [next_of_row hi] at hf
  refine ⟨f, hf, fun c hc => ht.next_lt row hrow (f c) ?_⟩
  rw [hf]
  exact List.mem_map_of_mem hc

theorem name_mem_names {i : Nat} (hi : i < t.size) : t.name i ∈ t.names :=
  List.mem_of_getElem? (getElem?_names_of_lt hi)

/-- The automaton of a valid table is complete and deterministic. -/
theorem Valid.isComplete_toAutomaton (ht : t.Valid) : t.toAutomaton.IsComplete t.alphabet := by
  have hwf := ht.toWellFormed
  -- Every transition is the one of its row on some symbol.
  have htransition : ∀ u ∈ t.toAutomaton.transitions, ∃ row ∈ t.rows, ∃ f : Char → Nat,
      (∀ c ∈ t.alphabet, f c < t.size) ∧ ∃ c ∈ t.alphabet, u = ⟨row.name, t.name (f c),
        Label.ofSymbols (t.alphabet.symbols.filter fun d => f d = f c)⟩ := by
    intro u hu
    obtain ⟨row, hrow, hu⟩ := (mem_transitions_toAutomaton t u).1 hu
    obtain ⟨f, hf, hlt⟩ := exists_next_map_of_mem hwf hrow
    exact ⟨row, hrow, f, hlt, (mem_rowTransitions_iff hf u).1 hu⟩
  constructor
  case start => exact length_starts_toAutomaton hwf
  case ends =>
    intro u hu
    obtain ⟨row, hrow, f, hlt, c, hc, rfl⟩ := htransition u hu
    rw [names_toAutomaton hwf.names_nodup]
    exact ⟨List.mem_map_of_mem hrow, name_mem_names (hlt c hc)⟩
  case tokens_ne_nil =>
    intro u hu
    obtain ⟨row, hrow, f, hlt, c, hc, rfl⟩ := htransition u hu
    refine List.ne_nil_of_mem (a := String.singleton c) ?_
    refine List.mem_map_of_mem ((Alphabet.mem_ofList _ c).2 ?_)
    exact List.mem_filter.2 ⟨hc, decide_eq_true rfl⟩
  case isSymbolToken =>
    intro u hu token htoken
    obtain ⟨row, hrow, f, hlt, c, hc, rfl⟩ := htransition u hu
    obtain ⟨d, hd, rfl⟩ := List.mem_map.1 htoken
    have hmem := (List.mem_filter.1 ((Alphabet.mem_ofList _ d).1 hd)).1
    exact ⟨d, fun heq => ht.epsilon_not_mem (heq ▸ hmem), rfl⟩
  case count_leaving =>
    intro name hname c
    rw [names_toAutomaton hwf.names_nodup] at hname
    obtain ⟨row, hrow, rfl⟩ := List.mem_map.1 hname
    obtain ⟨f, hf, -⟩ := exists_next_map_of_mem hwf hrow
    rw [Automaton.leavingTokens, outgoing_toAutomaton hwf hrow, tokens_rowTransitions,
      List.count_map_of_injective _ _ singleton_injective,
      (nodup_groupedSymbols hf).count]
    simp only [mem_groupedSymbols hf]
  case transitions_ne_nil =>
    obtain ⟨row, hrow⟩ := exists_row hwf.start_lt
    have hmem := List.mem_of_getElem? hrow
    obtain ⟨f, hf, -⟩ := exists_next_map_of_mem hwf hmem
    obtain ⟨c, hc⟩ := List.exists_mem_of_ne_nil _ hwf.symbols_ne_nil
    have hu := (mem_rowTransitions_iff hf _).2 ⟨c, hc, rfl⟩
    exact List.ne_nil_of_mem ((mem_transitions_toAutomaton t _).2 ⟨row, hmem, hu⟩)

theorem Valid.validate_toAutomaton (ht : t.Valid) :
    t.toAutomaton.validate none = .ok t.alphabet :=
  (Automaton.validate_none_eq_ok_iff _ _).2 ht.isComplete_toAutomaton

/-! ## Reading the rows off again -/

theorem Valid.targetOf_toAutomaton (ht : t.Valid) (hrow : row ∈ t.rows)
    (hf : row.next = t.alphabet.symbols.map f) {c : Char} (hc : c ∈ t.alphabet) :
    t.toAutomaton.targetOf row.name c = f c := by
  have hwf := ht.toWellFormed
  have hcε : c ≠ epsilonChar := fun heq => ht.epsilon_not_mem (heq ▸ hc)
  have hlt : f c < t.size := by
    apply hwf.next_lt row hrow
    rw [hf]
    exact List.mem_map_of_mem hc
  have hidx : t.names.idxOf (t.name (f c)) = f c := by
    have hget := getElem?_names_of_lt hlt
    obtain ⟨hlt', hget⟩ := List.getElem?_eq_some_iff.1 hget
    rw [← hget]
    exact List.Nodup.idxOf_getElem hwf.names_nodup _ _
  rw [Automaton.targetOf, outgoing_toAutomaton hwf hrow, names_toAutomaton hwf.names_nodup]
  cases hfind : (t.rowTransitions row).find? fun u => u.label.symbols.contains c with
  | none =>
      have hnot := List.find?_eq_none.1 hfind _ ((mem_rowTransitions_iff hf _).2 ⟨c, hc, rfl⟩)
      refine absurd (List.contains_iff_mem.2 ((Label.mem_symbols_ofSymbols _ c).2 ?_)) hnot
      exact ⟨hcε, List.mem_filter.2 ⟨hc, decide_eq_true rfl⟩⟩
  | some u =>
      have hfound := List.find?_some hfind
      have hcu : c ∈ u.label.symbols := List.contains_iff_mem.1 hfound
      obtain ⟨d, hd, rfl⟩ := (mem_rowTransitions_iff hf u).1 (List.mem_of_find?_eq_some hfind)
      have hmem := ((Label.mem_symbols_ofSymbols _ c).1 hcu).2
      have hcd : f c = f d := of_decide_eq_true (List.mem_filter.1 hmem).2
      exact (congrArg (fun k => t.names.idxOf (t.name k)) hcd.symm).trans hidx

theorem Valid.rowsOver_toAutomaton (ht : t.Valid) :
    t.toAutomaton.rowsOver t.alphabet = t.rows := by
  have hwf := ht.toWellFormed
  rw [Automaton.rowsOver, states_toAutomaton hwf.names_nodup]
  apply List.ext_getElem?
  intro k
  rw [List.getElem?_map, getElem?_namedStates]
  cases hk : t.rows[k]? with
  | none => rfl
  | some row =>
      have hrow := List.mem_of_getElem? hk
      obtain ⟨f, hf, -⟩ := exists_next_map_of_mem hwf hrow
      have hnext : t.alphabet.symbols.map (t.toAutomaton.targetOf row.name) = row.next := by
        rw [hf]
        exact List.map_congr_left fun c hc => ht.targetOf_toAutomaton hrow hf hc
      simp only [Option.map_some, hnext]

/-- A valid table is the table of its automaton. -/
theorem Valid.table?_toAutomaton (ht : t.Valid) : t.toAutomaton.table? = .ok t := by
  have hwf := ht.toWellFormed
  have hstart : t.toAutomaton.states.findIdx State.starting = t.start := by
    have hlt : t.start < 0 + t.rows.length := by
      rw [Nat.zero_add]
      exact hwf.start_lt
    rw [states_toAutomaton hwf.names_nodup,
      findIdx_starting_namedStates t.start 0 t.rows (Nat.zero_le _) hlt, Nat.sub_zero]
  rw [Automaton.table?, ht.validate_toAutomaton]
  simp only [hstart, ht.rowsOver_toAutomaton]

theorem Valid.verdict_toAutomaton (ht : t.Valid) (w : List Char) :
    t.toAutomaton.verdict w = t.verdict w := by
  rw [Automaton.verdict, ht.table?_toAutomaton]

end Table

end FiniteState
