import FiniteState.Proofs.Automaton.Agreement
import FiniteState.Proofs.Automaton.Reachable

/-!
# Determinising a deterministic automaton

A word leads a complete deterministic automaton to one state, so the set of states after the word
holds this state and no other. Words lead to one set exactly if they lead to one state. The subset
construction therefore finds the states that words lead to, each under a new name, and loses the
states that no word leads to.
-/

namespace FiniteState.Automaton

variable {a : Automaton} {S : Alphabet}

/-! ## The set of states after a word -/

/-- The set of states after a word holds the states in which the word ends. -/
theorem contains_run_machine_iff (a : Automaton) (w : List Char) (j : Nat) :
    (a.machine.run w).contains j = true ↔ ∃ q, a.names[j]? = some q ∧ a.EndsIn w (some q) := by
  have hname : ∀ {i : Nat} {s : State}, a.states[i]? = some s → a.names[i]? = some s.name :=
    fun h => (getElem?_names_eq_some_iff a _ _).2 ⟨_, h, rfl⟩
  have hbounded := Moves.bounded_ofAutomaton a
  refine (Moves.contains_run hbounded w j).trans ?_
  constructor
  · rintro ⟨i, hi, hstarts, hleads⟩
    obtain ⟨s, hs, hstarting⟩ := (Moves.contains_starts a i).1 hstarts
    have hq := List.getElem?_eq_getElem (hbounded.lt_of_leads hi hleads)
    rw [Moves.edge_ofAutomaton] at hleads
    refine ⟨_, hq, s.name, ?_, (leads_numbered_iff (hname hs) hq w).1 hleads⟩
    exact List.mem_map_of_mem (List.mem_filter.2 ⟨List.mem_of_getElem? hs, hstarting⟩)
  · rintro ⟨q, hq, p, hp, hpath⟩
    obtain ⟨s, hs, rfl⟩ := List.mem_map.1 hp
    obtain ⟨hs, hstarting⟩ := List.mem_filter.1 hs
    obtain ⟨i, hi⟩ := List.getElem?_of_mem hs
    refine ⟨i, (List.getElem?_eq_some_iff.1 (hname hi)).1,
      (Moves.contains_starts a i).2 ⟨s, hi, hstarting⟩, ?_⟩
    rw [Moves.edge_ofAutomaton]
    exact (leads_numbered_iff (hname hi) hq w).2 hpath

namespace IsComplete

variable (h : a.IsComplete S)

include h

/-- The set of states after a word holds the state to which the word leads, and no other. -/
theorem contains_run_machine_iff (w : List Char) (j : Nat) :
    (a.machine.run w).contains j = true ↔
      (a.tableOver S).run? (a.tableOver S).start w = some j := by
  have ht := h.valid_tableOver
  rw [Automaton.contains_run_machine_iff]
  simp only [EndsIn, h.stateNames_starts, List.mem_singleton, exists_eq_left]
  constructor
  · rintro ⟨q, hq, hpath⟩
    exact (h.path_iff_run? (getElem?_names_tableOver ht.start_lt) hq w).1 hpath
  · intro hrun
    have hq := getElem?_names_tableOver (ht.lt_of_run? ht.start_lt hrun)
    exact ⟨_, hq, (h.path_iff_run? (getElem?_names_tableOver ht.start_lt) hq w).2 hrun⟩

/-- Words lead to one set of states exactly if they lead to one state. -/
theorem run_machine_eq_iff {v w : List Char} (hv : ∀ c ∈ v, c ∈ S) :
    a.machine.run v = a.machine.run w ↔
      (a.tableOver S).run? (a.tableOver S).start v =
        (a.tableOver S).run? (a.tableOver S).start w := by
  obtain ⟨j, hj⟩ := (h.valid_tableOver.exists_run?_iff v).2 hv
  constructor
  · intro heq
    have hcontains := (h.contains_run_machine_iff v j).2 hj
    rw [heq, h.contains_run_machine_iff] at hcontains
    rw [hj, hcontains]
  · intro heq
    refine StateSet.ext_contains fun k => Bool.eq_iff_iff.2 ?_
    rw [h.contains_run_machine_iff, h.contains_run_machine_iff, heq]

/-! ## The table of the sets -/

/-- The table of the sets of states tells the same words apart. -/
theorem run?_subsetTable_eq_iff {v w : List Char} (hv : ∀ c ∈ v, c ∈ S) (hw : ∀ c ∈ w, c ∈ S) :
    a.subsetTable.run? a.subsetTable.start v = a.subsetTable.run? a.subsetTable.start w ↔
      (a.tableOver S).run? (a.tableOver S).start v =
        (a.tableOver S).run? (a.tableOver S).start w := by
  rw [← h.run_machine_eq_iff hv]
  rw [← h.alphabet_subsetTable] at hv hw
  exact Machine.run?_table_eq_iff (a.within_machine _) h.symbols_subsetTable_ne_nil hv hw

theorem exists_corresponds_subsetTable :
    ∃ f, (a.tableOver S).Corresponds a.subsetTable f := by
  have ht := h.valid_tableOver
  have hu := valid_subsetTable h.symbols_subsetTable_ne_nil
  have halphabet := h.alphabet_subsetTable
  have hover : ∀ {w i}, (a.tableOver S).run? (a.tableOver S).start w = some i →
      ∀ c ∈ w, c ∈ S := fun hw => (ht.exists_run?_iff _).1 ⟨_, hw⟩
  have hover' : ∀ {w i}, a.subsetTable.run? a.subsetTable.start w = some i →
      ∀ c ∈ w, c ∈ S := fun hw => halphabet ▸ (hu.exists_run?_iff _).1 ⟨_, hw⟩
  have hrefines : (a.tableOver S).Refines a.subsetTable := fun v w i hv hw =>
    (h.run?_subsetTable_eq_iff (hover hv) (hover hw)).2 (hv.trans hw.symm)
  have hrefines' : a.subsetTable.Refines (a.tableOver S) := fun v w i hv hw =>
    (h.run?_subsetTable_eq_iff (hover' hv) (hover' hw)).1 (hv.trans hw.symm)
  refine hrefines.exists_corresponds hrefines' ht.toWellFormed hu.toWellFormed halphabet fun w => ?_
  rw [← hu.verdict_toAutomaton, ← h.verdict_eq]
  exact h.verdict_determinise w

/-! ## States under new names -/

theorem tableOver_determinise : a.determinise.tableOver S = a.subsetTable := by
  rw [← h.alphabet_subsetTable]
  exact tableOver_toAutomaton (valid_subsetTable h.symbols_subsetTable_ne_nil)

theorem exists_corresponds_determinise : ∃ f, a.Corresponds a.determinise f := by
  rw [exists_corresponds_iff_tableOver h h.determinise, h.tableOver_determinise]
  exact h.exists_corresponds_subsetTable

/-- Words lead to all sets of states that are found. -/
theorem leadsTo_determinise {q : String} (hq : q ∈ a.determinise.names) :
    a.determinise.LeadsTo q := by
  have hbijOn := h.determinise.bijOn_name
  rw [h.tableOver_determinise] at hbijOn
  obtain ⟨i, hi⟩ := List.getElem?_of_mem hq
  have hlt := lt_size_tableOver S hi
  have hname := getElem?_names_tableOver hlt
  rw [h.tableOver_determinise] at hlt hname
  obtain rfl := Option.some.inj (hi.symm.trans hname)
  exact hbijOn.mapsTo
    (Machine.leadsTo_table (a.within_machine _) h.symbols_subsetTable_ne_nil hlt)

/-- The reachable states are paired off with the sets of states. -/
theorem exists_bijOn_reachable :
    ∃ f, Set.BijOn f {p | p ∈ a.reachable} {q | q ∈ a.determinise.names} ∧
      a.Corresponds a.determinise f := by
  obtain ⟨f, hf⟩ := h.exists_corresponds_determinise
  have hreached : {p | p ∈ a.reachable} = {p | a.LeadsTo p} := Set.ext h.mem_reachable_iff
  have hnamed : {q | q ∈ a.determinise.names} = {q | a.determinise.LeadsTo q} := by
    ext q
    refine ⟨h.leadsTo_determinise, fun ⟨p, hp, w, hw⟩ => ?_⟩
    exact hw.mem_names (mem_names_of_mem_starts hp)
  exact ⟨f, hreached ▸ hnamed ▸ hf.bijOn, hf⟩

/-- There are as many sets of states as reachable states. -/
theorem length_states_determinise : a.determinise.states.length = a.reachable.length := by
  obtain ⟨f, hf, -⟩ := h.exists_bijOn_reachable
  have hnames := ncard_setOf_mem (l := a.determinise.names) a.determinise.nodup
  rw [← length_names, ← hnames, ← ncard_setOf_mem a.nodup_reachable, ← hf.image_eq,
    hf.injOn.ncard_image]

/-- The automata are isomorphic exactly if nothing is lost. -/
theorem isomorphic_determinise_iff :
    a.isomorphic a.determinise = true ↔ ∀ p ∈ a.names, p ∈ a.reachable := by
  have hsubperm := List.subperm_of_subset a.nodup_reachable fun _ => mem_names_of_mem_reachable
  rw [isomorphic_iff h h.determinise, h.length_states_determinise, ← length_names]
  constructor
  · rintro ⟨-, heq, -⟩ p hp
    exact (hsubperm.perm_of_length_le heq.le).mem_iff.2 hp
  · intro hall
    have hlength := (List.subperm_of_subset a.nodup hall).length_le
    exact ⟨rfl, hlength.antisymm hsubperm.length_le, h.exists_corresponds_determinise⟩

end IsComplete

/-- The subset construction gives the reachable states of a complete deterministic automaton new
names and does nothing else: the automaton stays complete and deterministic over its alphabet, and
its states are in one-to-one correspondence with the reachable states, with the same start state,
accepting states and transitions. Both automata are isomorphic exactly if all states are
reachable. -/
theorem determinise_renames {a : Automaton} {S : Alphabet} (h : a.validate none = .ok S) :
    a.determinise.validate none = .ok S ∧
      a.determinise.states.length = a.reachable.length ∧
      (∃ f, Set.BijOn f {p | p ∈ a.reachable} {q | q ∈ a.determinise.names} ∧
        a.Corresponds a.determinise f) ∧
      (a.isomorphic a.determinise = true ↔ ∀ p ∈ a.names, p ∈ a.reachable) := by
  have ha := (validate_none_eq_ok_iff a S).1 h
  exact ⟨(validate_none_eq_ok_iff _ S).2 ha.determinise, ha.length_states_determinise,
    ha.exists_bijOn_reachable, ha.isomorphic_determinise_iff⟩

/-- A cycle of two states with names that sets of states might have. -/
def bracedCycle : Automaton :=
  ofLists [⟨"", true, false, none⟩, ⟨"\x7b\x7d", false, true, none⟩]
    [⟨"", "\x7b\x7d", ⟨["a"]⟩⟩, ⟨"\x7b\x7d", "", ⟨["a"]⟩⟩]

/-- The set that holds the state without a name has the name of the other state. -/
theorem isomorphic_determinise_bracedCycle :
    bracedCycle.validate none = .ok (.ofList ['a']) ∧
      bracedCycle.determinise.names = ["\x7b\x7d", "\x7b\x7b\x7d\x7d"] ∧
      bracedCycle.isomorphic bracedCycle.determinise = true := by
  have hvalid : bracedCycle.validate none = .ok (.ofList ['a']) := by decide +kernel
  obtain ⟨-, -, -, hiso⟩ := determinise_renames hvalid
  exact ⟨hvalid, by decide +kernel, hiso.2 (by decide +kernel)⟩

end FiniteState.Automaton
