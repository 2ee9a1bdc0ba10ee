import FiniteState.Proofs.Automaton.Table
import FiniteState.Proofs.Table.Product
import FiniteState.Proofs.Table.Quotient

/-!
# What holds of every table

Tables are made in four ways: they are read off automata, completed, minimised and multiplied. All
four keep the promises of `WellFormed`, so what a table looks up is always there: rows and the
entries of rows, the blocks of states and of the states to which they lead, and both sides of a
pair. Of the automaton of such a table the transitions are known one by one: there is one for each
pair of states of which one leads to the other, with the symbols that do so, in order.

A table is read off its automaton again as it was, if `ε` is not among its symbols. A completed
table may have `ε` among them, and its automaton is not deterministic then.
-/

namespace FiniteState

namespace Table

/-- The tables that the constructions make. -/
inductive Made : Table → Prop
  | read {a : Automaton} {alphabet : Option Alphabet} {S : Alphabet}
      (h : a.validate alphabet = .ok S) : Made (a.tableOver S)
  | completed {t : Table} (h : Made t) {S : Alphabet} (hS : ∀ c ∈ t.alphabet, c ∈ S) :
      Made (t.completeOver S)
  | minimised {t : Table} (h : Made t) : Made t.minimise
  | multiplied {left right : Table} (hl : Made left) (hr : Made right)
      (accept : Bool → Bool → Bool) : Made (left.product right accept)

variable {t : Table}

theorem Made.wellFormed (h : t.Made) : t.WellFormed := by
  induction h with
  | read h => exact ((Automaton.validate_eq_ok_iff _ _ _).1 h).1.valid_tableOver.toWellFormed
  | completed _ hS ih => exact ih.completeOver hS
  | minimised _ ih => exact wellFormed_minimise ih
  | multiplied _ _ accept ihl ihr => exact ihl.product accept ihr

/-! ## Rows end to end -/

/-- The entries of all rows, one row after the other. -/
def entries (t : Table) : List Nat := t.rows.flatMap Row.next

theorem length_flatMap_next {rows : List Row} {width : Nat}
    (h : ∀ row ∈ rows, row.next.length = width) :
    (rows.flatMap Row.next).length = rows.length * width := by
  induction rows with
  | nil => simp
  | cons row rows ih =>
      obtain ⟨hrow, hrows⟩ := List.forall_mem_cons.1 h
      rw [List.flatMap_cons, List.length_append, ih hrows, hrow, List.length_cons, Nat.succ_mul,
        Nat.add_comm]

/-- A row is found at its number times the width. -/
theorem take_drop_flatMap_next {rows : List Row} {width : Nat}
    (h : ∀ row ∈ rows, row.next.length = width) {i : Nat} {row : Row}
    (hrow : rows[i]? = some row) :
    ((rows.flatMap Row.next).drop (i * width)).take width = row.next := by
  induction rows generalizing i with
  | nil => cases hrow
  | cons first rows ih =>
      obtain ⟨hfirst, hrows⟩ := List.forall_mem_cons.1 h
      rw [List.flatMap_cons]
      cases i with
      | zero =>
          obtain rfl := Option.some.inj hrow
          rw [Nat.zero_mul, List.drop_zero, List.take_left' hfirst]
      | succ i =>
          rw [Nat.succ_mul, Nat.add_comm, ← List.drop_drop, List.drop_left' hfirst]
          exact ih hrows hrow

namespace WellFormed

variable (ht : t.WellFormed)

include ht

theorem length_entries : t.entries.length = t.size * t.alphabet.size :=
  length_flatMap_next ht.length_next

theorem entries_lt : ∀ n ∈ t.entries, n < t.size := by
  intro n hn
  obtain ⟨row, hrow, hn⟩ := List.mem_flatMap.1 hn
  exact ht.next_lt row hrow n hn

theorem take_drop_entries {i : Nat} (hi : i < t.size) :
    (t.entries.drop (i * t.alphabet.size)).take t.alphabet.size = t.next i := by
  obtain ⟨row, hrow⟩ := exists_row hi
  rw [next_of_row hrow]
  exact take_drop_flatMap_next ht.length_next hrow

/-- While the blocks are refined, a state and the states to which it leads stand in blocks. -/
theorem blockOf_lt_of_leadsTo (k : Nat) {s : Nat} (hs : t.LeadsTo s) :
    blockOf (t.refine k t.initialBlocks).1 s < (t.refine k t.initialBlocks).1.length ∧
      ∀ b ∈ t.signature (t.refine k t.initialBlocks).1 s,
        b < (t.refine k t.initialBlocks).1.length := by
  have hpartition := partition_refine ht k (partition_initialBlocks ht)
  have hlt : ∀ {s}, t.LeadsTo s →
      blockOf (t.refine k t.initialBlocks).1 s < (t.refine k t.initialBlocks).1.length := by
    intro s hs
    obtain ⟨b, hb, -⟩ := exists_block ((hpartition.mem_iff s).2 hs)
    exact (List.getElem?_eq_some_iff.1 hb).1
  refine ⟨hlt hs, fun b hb => ?_⟩
  obtain ⟨f, hf, hstep⟩ := ht.exists_step hs
  rw [signature, hf, List.map_map] at hb
  obtain ⟨c, hc, rfl⟩ := List.mem_map.1 hb
  exact hlt (hstep c hc).2

/-- Both sides of a pair in which a word ends are states of the completed tables. -/
theorem run_productMachine_lt {u : Table} (hu : u.WellFormed) (accept : Bool → Bool → Bool)
    {w : List Char} (hw : ∀ c ∈ w, c ∈ t.alphabet.union u.alphabet) :
    ((t.productMachine u accept).run w).1 < (t.completeOver (t.alphabet.union u.alphabet)).size ∧
      ((t.productMachine u accept).run w).2 <
        (u.completeOver (t.alphabet.union u.alphabet)).size := by
  rw [run_productMachine accept ht hu hw]
  exact ⟨getD_run?_lt ht (fun c hc => (Alphabet.mem_union _ _ c).2 (.inr hc)) hw,
    getD_run?_lt hu (fun c hc => (Alphabet.mem_union _ _ c).2 (.inl hc)) hw⟩

end WellFormed

/-- What is looked up is there: names, flags and rows of every state, rows among the entries, the
states that entries name, the blocks of states while they are refined, and the states of a pair. -/
structure InRange (t : Table) : Prop where
  length_columns : t.names.length = t.size ∧ (t.rows.map Row.accepting).length = t.size ∧
    (t.rows.map Row.next).length = t.size
  length_entries : t.entries.length = t.size * t.alphabet.size
  entries_lt : ∀ n ∈ t.entries, n < t.size
  row_eq : ∀ i < t.size, (t.next i).length = t.alphabet.size ∧
    (t.entries.drop (i * t.alphabet.size)).take t.alphabet.size = t.next i
  blockOf_lt : ∀ k s, t.LeadsTo s →
    blockOf (t.refine k t.initialBlocks).1 s < (t.refine k t.initialBlocks).1.length ∧
      ∀ b ∈ t.signature (t.refine k t.initialBlocks).1 s,
        b < (t.refine k t.initialBlocks).1.length
  pair_lt : ∀ (u : Table) (accept : Bool → Bool → Bool) (w : List Char), u.WellFormed →
    (∀ c ∈ w, c ∈ t.alphabet.union u.alphabet) →
    ((t.productMachine u accept).run w).1 < (t.completeOver (t.alphabet.union u.alphabet)).size ∧
      ((t.productMachine u accept).run w).2 <
        (u.completeOver (t.alphabet.union u.alphabet)).size

theorem WellFormed.inRange (ht : t.WellFormed) : t.InRange where
  length_columns := ⟨List.length_map _, List.length_map _, List.length_map _⟩
  length_entries := ht.length_entries
  entries_lt := ht.entries_lt
  row_eq := by
    intro i hi
    obtain ⟨f, hf⟩ := ht.exists_next_eq_map hi
    refine ⟨?_, ht.take_drop_entries hi⟩
    rw [hf, List.length_map]
    rfl
  blockOf_lt k _ hs := ht.blockOf_lt_of_leadsTo k hs
  pair_lt _ accept _ hu hw := ht.run_productMachine_lt hu accept hw

/-! ## Transitions -/

theorem tokens_ofSymbols_filter (S : Alphabet) (p : Char → Bool) :
    Label.ofSymbols (S.symbols.filter p) = ⟨(S.symbols.filter p).map String.singleton⟩ := by
  have hsame : Alphabet.ofList (S.symbols.filter p) =
      ⟨S.symbols.filter p, S.increasing.filter _⟩ :=
    Alphabet.ext_mem fun c => Alphabet.mem_ofList _ c
  rw [Label.ofSymbols, hsame]
  rfl

/-- There is a transition for each pair of states of which one leads to the other. It has the
symbols that do so, in order. -/
theorem WellFormed.mem_transitions_iff (ht : t.WellFormed) (u : Transition) :
    u ∈ t.toAutomaton.transitions ↔ ∃ i < t.size, ∃ j, (∃ c, t.step? i c = some j) ∧
      u = ⟨t.name i, t.name j,
        ⟨(t.alphabet.symbols.filter fun c => t.step? i c = some j).map String.singleton⟩⟩ := by
  have hlabel : ∀ {i : Nat} {f : Char → Nat} (j : Nat), t.next i = t.alphabet.symbols.map f →
      Label.ofSymbols (t.alphabet.symbols.filter fun d => f d = j) =
        ⟨(t.alphabet.symbols.filter fun c => t.step? i c = some j).map String.singleton⟩ := by
    intro i f j hf
    rw [tokens_ofSymbols_filter]
    refine congrArg (fun cs : List Char => (⟨cs.map String.singleton⟩ : Label)) ?_
    refine List.filter_congr fun c hc => ?_
    have hmem : c ∈ t.alphabet := hc
    rw [step?_of_next hf, if_pos hmem]
    simp only [Option.some.injEq]
  rw [mem_transitions_toAutomaton]
  constructor
  · rintro ⟨row, hrow, hu⟩
    obtain ⟨i, hi⟩ := List.getElem?_of_mem hrow
    have hlt : i < t.size := (List.getElem?_eq_some_iff.1 hi).1
    obtain ⟨f, hf⟩ := ht.exists_next_eq_map hlt
    obtain ⟨c, hc, rfl⟩ := (mem_rowTransitions_iff ((next_of_row hi).symm.trans hf) u).1 hu
    refine ⟨i, hlt, f c, ⟨c, ?_⟩, ?_⟩
    · rw [step?_of_next hf, if_pos hc]
    · rw [hlabel (f c) hf, name_of_row hi]
  · rintro ⟨i, hlt, j, ⟨c, hc⟩, rfl⟩
    obtain ⟨row, hi⟩ := exists_row hlt
    obtain ⟨f, hf⟩ := ht.exists_next_eq_map hlt
    rw [step?_of_next hf] at hc
    obtain ⟨hmem, hj⟩ := Option.ite_none_right_eq_some.1 hc
    obtain rfl := Option.some.inj hj
    refine ⟨row, List.mem_of_getElem? hi, ?_⟩
    rw [← hlabel (f c) hf, name_of_row hi]
    exact (mem_rowTransitions_iff ((next_of_row hi).symm.trans hf) _).2 ⟨c, hmem, rfl⟩

/-- No two transitions go the same way. -/
theorem WellFormed.nodup_ends (ht : t.WellFormed) :
    (t.toAutomaton.transitions.map fun u => (u.source, u.target)).Nodup := by
  have hends : ∀ row : Row, (t.rowTransitions row).map (fun u => (u.source, u.target)) =
      (groupPairs (row.next.zip t.alphabet.symbols)).map fun g => (row.name, t.name g.1) := by
    intro row
    rw [rowTransitions, List.map_map]
    rfl
  have hflat : t.toAutomaton.transitions.map (fun u => (u.source, u.target)) =
      t.rows.flatMap fun row =>
        (groupPairs (row.next.zip t.alphabet.symbols)).map fun g => (row.name, t.name g.1) := by
    simp only [← hends]
    exact List.map_flatMap
  rw [hflat, List.nodup_flatMap]
  constructor
  · intro row hrow
    have hkeys := (groups_groupPairs (row.next.zip t.alphabet.symbols)).nodup
    have hlt : ∀ g ∈ groupPairs (row.next.zip t.alphabet.symbols), g.1 < t.size := by
      intro g hg
      obtain ⟨p, hp, heq⟩ := exists_of_mem_groupPairs hg
      exact ht.next_lt row hrow g.1 (heq ▸ (List.of_mem_zip hp).1)
    refine List.pairwise_map.2 ((List.pairwise_map.1 hkeys).imp_of_mem ?_)
    intro g g' hg hg' hne heq
    exact hne (ht.name_inj (hlt g hg) (hlt g' hg') (Prod.mk.inj heq).2)
  · refine (List.pairwise_map.1 ht.names_nodup).imp ?_
    intro row row' hne e he he'
    obtain ⟨g, -, rfl⟩ := List.mem_map.1 he
    obtain ⟨g', -, heq⟩ := List.mem_map.1 he'
    exact hne (Prod.mk.inj heq).1.symm

/-! ## Reading tables off again -/

/-- All tables that the constructions make are well formed, so that everything is there which is
looked up. The automaton of a well-formed table has one transition for each pair of states of which
one leads to the other, with the symbols that do so, in order. If `ε` is not a symbol of the table,
its automaton is complete and deterministic over the alphabet of the table, and the table is read
off it again. An alphabet that validation gives does not hold `ε`. -/
theorem read_back_exact (t : Table) :
    (t.Made → t.WellFormed ∧ t.alphabet.symbols.Pairwise (· < ·) ∧ t.InRange) ∧
    (t.WellFormed →
      (∀ u, u ∈ t.toAutomaton.transitions ↔ ∃ i < t.size, ∃ j, (∃ c, t.step? i c = some j) ∧
        u = ⟨t.name i, t.name j,
          ⟨(t.alphabet.symbols.filter fun c => t.step? i c = some j).map String.singleton⟩⟩) ∧
      (t.toAutomaton.transitions.map fun u => (u.source, u.target)).Nodup ∧
      (¬ epsilonChar ∈ t.alphabet →
        t.toAutomaton.validate none = .ok t.alphabet ∧ t.toAutomaton.table? = .ok t)) ∧
    ∀ (a : Automaton) (alphabet : Option Alphabet) (S : Alphabet),
      a.validate alphabet = .ok S → ¬ epsilonChar ∈ S := by
  refine ⟨fun h => ⟨h.wellFormed, t.alphabet.increasing, h.wellFormed.inRange⟩, fun ht => ?_, ?_⟩
  · refine ⟨ht.mem_transitions_iff, ht.nodup_ends, fun hε => ?_⟩
    have hvalid : t.Valid := ⟨ht, hε⟩
    exact ⟨hvalid.validate_toAutomaton, hvalid.table?_toAutomaton⟩
  · intro a alphabet S h
    exact ((Automaton.validate_eq_ok_iff a alphabet S).1 h).1.epsilon_not_mem

/-- The table of one state that accepts the words over `a`, completed over `S`. -/
def loopOver (S : Alphabet) : Table :=
  ((Automaton.ofLists [⟨"A", true, true, none⟩] [⟨"A", "A", ⟨["a"]⟩⟩]).tableOver
    (.ofList ['a'])).completeOver S

theorem made_loopOver {S : Alphabet} (hS : 'a' ∈ S) : (loopOver S).Made := by
  have hvalid : (Automaton.ofLists [⟨"A", true, true, none⟩] [⟨"A", "A", ⟨["a"]⟩⟩]).validate none =
      .ok (.ofList ['a']) := by
    decide +kernel
  refine .completed (.read hvalid) fun c hc => ?_
  rwa [List.mem_singleton.1 ((Alphabet.mem_ofList ['a'] c).1 hc)]

/-- Completed over another symbol, the table is read back with its sink. -/
theorem read_back_exact_sink : (loopOver (.ofList ['a', 'b'])).InRange ∧
    (loopOver (.ofList ['a', 'b'])).toAutomaton.validate none = .ok (.ofList ['a', 'b']) ∧
    (loopOver (.ofList ['a', 'b'])).toAutomaton.table? = .ok (loopOver (.ofList ['a', 'b'])) := by
  obtain ⟨hmade, hexact, -⟩ := read_back_exact (loopOver (.ofList ['a', 'b']))
  obtain ⟨ht, -, hrange⟩ := hmade (made_loopOver (by decide))
  obtain ⟨-, -, hback⟩ := hexact ht
  exact ⟨hrange, hback (by decide)⟩

/-- Completed over `ε`, the table is well formed, and its automaton is not deterministic. -/
theorem not_validate_loopOver_epsilon : (loopOver (.ofList ['a', 'ε'])).Made ∧
    (loopOver (.ofList ['a', 'ε'])).WellFormed ∧
    (loopOver (.ofList ['a', 'ε'])).toAutomaton.validate none = .error (.epsilon "A") ∧
    (loopOver (.ofList ['a', 'ε'])).toAutomaton.table? = .error (.epsilon "A") := by
  have hmade := made_loopOver (S := .ofList ['a', 'ε']) (by decide)
  exact ⟨hmade, hmade.wellFormed, by decide +kernel, by decide +kernel⟩

end Table

end FiniteState
