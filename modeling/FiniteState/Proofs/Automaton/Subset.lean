import FiniteState.Proofs.Automaton.Simulation
import FiniteState.Proofs.Machine
import FiniteState.Proofs.Table.Conversion

/-!
# The subset construction

The machine that follows all choices of an automaton has sets of states as its states, and a
set of numbers below `n` is a number below `2 ^ n`. So its table is well formed, and what the
table accepts is what the automaton accepts.

The alphabet of the table is made of the symbols that some transition between existing states
carries. Without such a symbol there is one set only, and the automaton of a table without
transitions is not complete: it crashes on every word.
-/

namespace FiniteState

namespace StateSet

theorem bits_lt {s : StateSet} {n : Nat} (h : ∀ i, s.contains i = true → i < n) :
    s.bits < 2 ^ n := by
  apply Nat.lt_pow_two_of_testBit
  intro i hi
  by_cases hs : s.contains i = true
  · exact absurd (h i hs) (Nat.not_lt.2 hi)
  · exact Bool.eq_false_of_not_eq_true hs

end StateSet

namespace Moves

variable {m : Moves}

theorem Bounded.lt_of_leads (hm : m.Bounded) {i j : Nat} {w : List Char}
    (hi : i < m.names.length) (h : Leads m.Edge i w j) : j < m.names.length := by
  induction h with
  | nil i => exact hi
  | cons he _ ih => exact ih (hm _ _ _ he).2

/-- There are only so many sets of states. -/
theorem within_machine (hm : m.Bounded) (S : Alphabet) :
    m.machine.Within S (2 ^ m.names.length) := by
  refine ⟨(List.range (2 ^ m.names.length)).map StateSet.mk, ?_, ?_, ?_⟩
  · refine List.mem_map.2 ⟨m.machine.start.bits, List.mem_range.2 (StateSet.bits_lt ?_), rfl⟩
    intro j hj
    obtain ⟨i, hi, -, hw⟩ := (contains_closeWith hm m.starts j).1 hj
    exact hm.lt_of_leads hi hw
  · intro s _ c _
    refine List.mem_map.2 ⟨(m.machine.step s c).bits, List.mem_range.2 (StateSet.bits_lt ?_), rfl⟩
    intro j hj
    obtain ⟨i, k, -, hmem, hw⟩ := (contains_stepWith hm s c j).1 hj
    exact hm.lt_of_leads (hm i [c] k (.inr ⟨c, rfl, hmem⟩)).2 hw
  · rw [List.length_map, List.length_range]

end Moves

namespace Automaton

/-- Some transition between existing states carries the symbol. -/
def Carries (a : Automaton) (c : Char) : Prop :=
  ∃ t ∈ a.transitions, t.source ∈ a.names ∧ t.target ∈ a.names ∧
    c ≠ epsilonChar ∧ String.singleton c ∈ t.label.tokens

theorem carries_iff_numberedEdge (a : Automaton) (c : Char) :
    a.Carries c ↔ ∃ i j, a.NumberedEdge Label.pieces i [c] j := by
  have hpieces : ∀ l : Label, [c] ∈ l.pieces ↔ c ≠ epsilonChar ∧ String.singleton c ∈ l.tokens := by
    intro l
    rw [Label.mem_pieces_iff, ← Label.mem_symbols_iff]
    simp
  constructor
  · intro h
    obtain ⟨t, ht, hsource, htarget, hc⟩ := h
    obtain ⟨i, hi⟩ := List.getElem?_of_mem hsource
    obtain ⟨j, hj⟩ := List.getElem?_of_mem htarget
    exact ⟨i, j, _, _, hi, hj, hsource, htarget, t, ht, rfl, rfl, (hpieces _).2 hc⟩
  · intro h
    obtain ⟨i, j, p, q, -, -, hsource, htarget, t, ht, rfl, rfl, hc⟩ := h
    exact ⟨t, ht, hsource, htarget, (hpieces _).1 hc⟩

/-- The symbols that words of the language are made of. -/
theorem carries_of_leads {a : Automaton} {i j : Nat} {w : List Char}
    (h : Leads (a.NumberedEdge Label.pieces) i w j) : ∀ c ∈ w, a.Carries c := by
  induction h with
  | nil i => simp
  | @cons i k j v w he _ ih =>
      intro c hc
      rcases List.mem_append.1 hc with hc | hc
      · have hpiece := he
        obtain ⟨p, q, -, -, -, -, t, -, -, -, hv⟩ := hpiece
        have hsingle : v = [c] := by
          rcases (Label.mem_pieces_iff _ v).1 hv with ⟨rfl, -⟩ | ⟨d, -, rfl⟩
          · cases hc
          · rw [List.mem_singleton.1 hc]
        exact (carries_iff_numberedEdge a c).2 ⟨i, k, hsingle ▸ he⟩
      · exact ih c hc

theorem carries_of_accepts {a : Automaton} {w : List Char} (h : a.accepts w = true) :
    ∀ c ∈ w, a.Carries c := by
  have hw := (accepts_iff_mem_language a w).1 h
  obtain ⟨i, s, -, -, j, u, -, -, hleads⟩ := (mem_languageOver_iff_numbered a _ w).1 hw
  exact carries_of_leads hleads

theorem mem_alphabet_subsetTable (a : Automaton) (c : Char) :
    c ∈ a.subsetTable.alphabet ↔ a.Carries c := by
  have hmem : c ∈ a.subsetTable.alphabet ↔
      ∃ i j, (i, c, j) ∈ (Moves.ofAutomaton a).reading := by
    have halphabet : a.subsetTable.alphabet = (Moves.ofAutomaton a).alphabet := rfl
    rw [halphabet, Moves.alphabet, Alphabet.mem_ofList, List.mem_map]
    constructor
    · intro h
      obtain ⟨⟨i, d, j⟩, hr, rfl⟩ := h
      exact ⟨i, j, hr⟩
    · intro h
      obtain ⟨i, j, hr⟩ := h
      exact ⟨(i, c, j), hr, rfl⟩
  rw [hmem, carries_iff_numberedEdge, ← Moves.edge_ofAutomaton]
  simp only [Moves.edge_singleton_iff]

theorem within_machine (a : Automaton) (S : Alphabet) :
    a.machine.Within S a.subsetCount := by
  have hwithin := Moves.within_machine (Moves.bounded_ofAutomaton a) S
  rwa [Moves.length_names_ofAutomaton] at hwithin

/-! ## With symbols -/

/-- The table of the subset construction is valid if there is something to read. -/
theorem valid_subsetTable {a : Automaton} (h : a.subsetTable.alphabet.symbols ≠ []) :
    a.subsetTable.Valid where
  toWellFormed := Machine.wellFormed_table (a.within_machine _) h
  epsilon_not_mem := by
    intro hmem
    obtain ⟨t, -, -, -, hε, -⟩ := (mem_alphabet_subsetTable a _).1 hmem
    exact hε rfl

theorem verdict_subsetTable_eq_accept_iff {a : Automaton}
    (h : a.subsetTable.alphabet.symbols ≠ []) (w : List Char) :
    a.subsetTable.verdict w = .accept ↔ a.accepts w = true := by
  refine (Machine.verdict_table_eq_accept_iff (a.within_machine _) h w).trans ?_
  constructor
  · exact fun hw => hw.2
  · intro hw
    exact ⟨fun c hc => (mem_alphabet_subsetTable a c).2 (carries_of_accepts hw c hc), hw⟩

/-! ## Without symbols -/

/-- Without symbols, the start set is the only one that is met. -/
theorem rows_subsetTable {a : Automaton} (h : a.subsetTable.alphabet.symbols = []) :
    ∃ row : Row, row.next = [] ∧ a.subsetTable.rows = [row] := by
  have hfound := a.machine.found_of_symbols_eq_nil h a.subsetCount
  have hlength : a.subsetTable.rows.length = 1 :=
    (Machine.length_rows _ _ _).trans (congrArg List.length hfound)
  obtain ⟨row, hrow⟩ := List.length_eq_one_iff.1 hlength
  have hstart : (a.machine.found a.subsetTable.alphabet a.subsetCount)[0]? =
      some a.machine.start := by
    rw [hfound]
    rfl
  obtain ⟨row', hrow', -, hnext⟩ := Machine.exists_row_of_getElem? hstart
  have hget : a.subsetTable.rows[0]? = some row' := hrow'
  rw [hrow, List.getElem?_cons_zero, Option.some.injEq] at hget
  refine ⟨row, ?_, hrow⟩
  rw [hget, hnext, h, List.map_nil]

theorem determinise_eq {a : Automaton} (h : a.subsetTable.alphabet.symbols = []) :
    ∃ s : State, s.starting = true ∧ a.determinise = ofLists [s] [] := by
  obtain ⟨row, hnext, hrows⟩ := rows_subsetTable h
  refine ⟨⟨row.name, true, row.accepting, none⟩, rfl, ?_⟩
  have hstart : a.subsetTable.start = 0 := rfl
  rw [determinise, Table.toAutomaton, hstart, hrows, List.flatMap_singleton,
    Table.rowTransitions, hnext]
  rfl

theorem validate_single (s : State) (hs : s.starting = true) :
    (ofLists [s] []).validate none = .error .noTransitions := by
  have hstarts : (ofLists [s] []).starts = [s] := by
    have hstates : (ofLists [s] []).states = [s] := rfl
    rw [starts, hstates, List.filter_cons_of_pos hs, List.filter_nil]
  have hcheck : (ofLists [s] []).checkStart = .ok () := by
    rw [checkStart, hstarts]
    rfl
  rw [validate, hcheck]
  rfl

/-! ## The construction -/

/-- Let `S` be the symbols between existing states. If there are any, the subset construction
is complete and deterministic over `S`, accepts the same words, and crashes on the words that
hold another symbol. If there are none, it is one state without transitions. -/
theorem determinise_correct (a : Automaton) : ∃ S : Alphabet, (∀ c, c ∈ S ↔ a.Carries c) ∧
    ((S ≠ .empty ∧ a.determinise.validate none = .ok S ∧ ∀ w,
        (a.determinise.verdict w = .accept ↔ a.accepts w = true) ∧
        (a.determinise.verdict w = .crash ↔ ∃ c ∈ w, ¬ c ∈ S)) ∨
      (S = .empty ∧ a.determinise.states.length = 1 ∧ a.determinise.transitions = [] ∧
        a.determinise.validate none = .error .noTransitions ∧
        ∀ w, a.determinise.verdict w = .crash)) := by
  refine ⟨a.subsetTable.alphabet, mem_alphabet_subsetTable a, ?_⟩
  by_cases h : a.subsetTable.alphabet.symbols = []
  · obtain ⟨s, hs, heq⟩ := determinise_eq h
    have hvalidate : a.determinise.validate none = .error .noTransitions := by
      rw [heq]
      exact validate_single s hs
    have hempty : a.subsetTable.alphabet = .empty := Alphabet.ext_mem fun c => by
      rw [Alphabet.mem_def, h]
      rfl
    refine .inr ⟨hempty, ?_, ?_, hvalidate, fun w => ?_⟩
    · rw [heq]
      rfl
    · rw [heq]
      rfl
    · rw [verdict, table?, hvalidate]
  · have ht := valid_subsetTable h
    refine .inl ⟨fun hempty => h (hempty ▸ rfl), ht.validate_toAutomaton, fun w => ⟨?_, ?_⟩⟩
    · rw [determinise, ht.verdict_toAutomaton]
      exact verdict_subsetTable_eq_accept_iff h w
    · rw [determinise, ht.verdict_toAutomaton]
      exact ht.verdictFrom_eq_crash_iff ht.start_lt w

end Automaton

end FiniteState
