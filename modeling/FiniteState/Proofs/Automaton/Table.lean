import FiniteState.Proofs.Table.Conversion

/-!
# The table of a complete deterministic automaton

A complete deterministic automaton has a valid table with its states in their order. There
is one way to read a symbol from a state, so the paths of the automaton are the runs of the
table: `path_iff_run?` says so for every pair of states and every word. What is shown of
tables is thereby shown of the graphs that they are read off.
-/

namespace FiniteState

/-- If a value stands once in the joined lists, one member only has it in its list. -/
theorem eq_of_count_flatMap_le_one {α β : Type} [BEq β] [LawfulBEq β] {f : α → List β}
    {l : List α} {b : β} (h : (l.flatMap f).count b ≤ 1) {x y : α} (hx : x ∈ l) (hy : y ∈ l)
    (hbx : b ∈ f x) (hby : b ∈ f y) : x = y := by
  induction l with
  | nil => cases hx
  | cons a l ih =>
      rw [List.flatMap_cons, List.count_append] at h
      have hpos : ∀ z ∈ l, b ∈ f z → 0 < (l.flatMap f).count b := fun z hz hbz =>
        List.count_pos_iff.2 (List.mem_flatMap.2 ⟨z, hz, hbz⟩)
      rcases List.mem_cons.1 hx with rfl | hxl
      · rcases List.mem_cons.1 hy with rfl | hyl
        · rfl
        · have hfirst := List.count_pos_iff.2 hbx
          have hrest := hpos y hyl hby
          omega
      · rcases List.mem_cons.1 hy with rfl | hyl
        · have hfirst := List.count_pos_iff.2 hby
          have hrest := hpos x hxl hbx
          omega
        · exact ih (by omega) hxl hyl

namespace Automaton

variable {a : Automaton} {S : Alphabet}

namespace IsComplete

/-- Two transitions that leave a state on one symbol are the same. -/
theorem transition_unique (h : a.IsComplete S) {u v : Transition} (hu : u ∈ a.transitions)
    (hv : v ∈ a.transitions) (hsource : u.source = v.source) {c : Char}
    (hcu : String.singleton c ∈ u.label.tokens) (hcv : String.singleton c ∈ v.label.tokens) :
    u = v := by
  have hcount := h.count_leaving u.source (h.ends u hu).1 c
  rw [leavingTokens] at hcount
  refine eq_of_count_flatMap_le_one (f := fun t : Transition => t.label.tokens)
    (l := a.outgoing u.source) ?_ ((mem_outgoing a _ u).2 ⟨hu, rfl⟩)
    ((mem_outgoing a _ v).2 ⟨hv, hsource.symm⟩) hcu hcv
  rw [hcount]
  split
  · exact Nat.le_refl 1
  · exact Nat.zero_le 1

/-- What a label lets through is its symbols, each of which is one of the alphabet. -/
theorem mem_pieces_iff (h : a.IsComplete S) {u : Transition} (hu : u ∈ a.transitions)
    (v : List Char) :
    v ∈ u.label.pieces ↔ ∃ c ∈ S, v = [c] ∧ String.singleton c ∈ u.label.tokens := by
  have hpieces : v ∈ u.label.pieces ↔ (v = [] ∧ epsilonToken ∈ u.label.tokens) ∨
      ∃ c, v = [c] ∧ c ≠ epsilonChar ∧ String.singleton c ∈ u.label.tokens := Iff.rfl
  rw [hpieces]
  constructor
  · intro hv
    rcases hv with ⟨-, hε⟩ | ⟨c, hv, -, hc⟩
    · obtain ⟨c, hc, heq⟩ := h.isSymbolToken u hu _ hε
      exact absurd heq.symm (singleton_ne_epsilonToken hc)
    · have hmem := (h.mem_leavingTokens_iff (h.ends u hu).1 c).1 (mem_leavingTokens hu hc)
      exact ⟨c, hmem, hv, hc⟩
  · intro hv
    obtain ⟨c, hc, hv, htoken⟩ := hv
    exact .inr ⟨c, hv, fun heq => h.epsilon_not_mem (heq ▸ hc), htoken⟩

/-- The transition that a symbol is looked up on. -/
theorem exists_transition (h : a.IsComplete S) {name : String} (hname : name ∈ a.names)
    {c : Char} (hc : c ∈ S) : ∃ u ∈ a.transitions, u.source = name ∧
      String.singleton c ∈ u.label.tokens ∧ a.names[a.targetOf name c]? = some u.target := by
  have hcε : c ≠ epsilonChar := fun heq => h.epsilon_not_mem (heq ▸ hc)
  obtain ⟨v, hv, hcv⟩ := List.mem_flatMap.1 ((h.mem_leavingTokens_iff hname c).2 hc)
  rw [targetOf]
  cases hfind : (a.outgoing name).find? fun t => t.label.symbols.contains c with
  | none =>
      refine absurd (List.contains_iff_mem.2 ?_) (List.find?_eq_none.1 hfind v hv)
      exact (Label.mem_symbols_iff _ c).2 ⟨hcε, hcv⟩
  | some u =>
      have hfound := List.find?_some hfind
      have hcu := (Label.mem_symbols_iff _ c).1 (List.contains_iff_mem.1 hfound)
      obtain ⟨hu, hsource⟩ := (mem_outgoing a name u).1 (List.mem_of_find?_eq_some hfind)
      exact ⟨u, hu, hsource, hcu.2, List.getElem?_idxOf (h.ends u hu).2⟩

end IsComplete

/-! ## The table -/

/-- The table of an automaton that is complete and deterministic over `S`. -/
def tableOver (a : Automaton) (S : Alphabet) : Table :=
  ⟨S, a.states.findIdx State.starting, a.rowsOver S⟩

theorem table?_eq_ok_iff (a : Automaton) (t : Table) :
    a.table? = .ok t ↔ a.IsComplete t.alphabet ∧ t = a.tableOver t.alphabet := by
  rw [← validate_none_eq_ok_iff, table?]
  cases hS : a.validate none with
  | error d => simp
  | ok S =>
      simp only [Except.ok.injEq]
      constructor
      · rintro rfl
        exact ⟨rfl, rfl⟩
      · intro ht
        rw [ht.2, ht.1]
        rfl

theorem table?_eq_error {d : Defect} (h : a.validate none = .error d) : a.table? = .error d := by
  rw [table?, h]

theorem IsComplete.table? (h : a.IsComplete S) : a.table? = .ok (a.tableOver S) :=
  (table?_eq_ok_iff a _).2 ⟨h, rfl⟩

theorem IsComplete.verdict_eq (h : a.IsComplete S) (w : List Char) :
    a.verdict w = (a.tableOver S).verdict w := by
  rw [verdict, h.table?]

theorem size_tableOver (a : Automaton) (S : Alphabet) :
    (a.tableOver S).size = a.states.length :=
  List.length_map _

theorem lt_size_tableOver (S : Alphabet) {i : Nat} {p : String} (hp : a.names[i]? = some p) :
    i < (a.tableOver S).size := by
  have hlt := (List.getElem?_eq_some_iff.1 hp).1
  rwa [size_tableOver, ← List.length_map State.name]

theorem names_tableOver (a : Automaton) (S : Alphabet) : (a.tableOver S).names = a.names := by
  rw [Table.names, tableOver, rowsOver, List.map_map]
  rfl

theorem getElem?_names_tableOver {i : Nat} (hi : i < (a.tableOver S).size) :
    a.names[i]? = some ((a.tableOver S).name i) := by
  rw [← names_tableOver a S]
  exact Table.getElem?_names_of_lt hi

theorem getElem?_rows_tableOver (a : Automaton) (S : Alphabet) (i : Nat) :
    (a.tableOver S).rows[i]? = a.states[i]?.map fun s =>
      ⟨s.name, s.accepting, S.symbols.map (a.targetOf s.name)⟩ :=
  List.getElem?_map

theorem accepting_tableOver (a : Automaton) (S : Alphabet) {i : Nat} {s : State}
    (hs : a.states[i]? = some s) : (a.tableOver S).accepting i = s.accepting := by
  have hrow := getElem?_rows_tableOver a S i
  rw [hs] at hrow
  exact Table.accepting_of_row hrow

theorem step?_tableOver (a : Automaton) (S : Alphabet) {i : Nat} {p : String}
    (hp : a.names[i]? = some p) (c : Char) :
    (a.tableOver S).step? i c = if c ∈ S then some (a.targetOf p c) else none := by
  obtain ⟨s, hs, rfl⟩ := (getElem?_names_eq_some_iff a i p).1 hp
  have hrow := getElem?_rows_tableOver a S i
  rw [hs] at hrow
  exact Table.step?_of_next (Table.next_of_row hrow) c

/-- The table of a complete deterministic automaton is valid. -/
theorem IsComplete.valid_tableOver (h : a.IsComplete S) : (a.tableOver S).Valid where
  symbols_ne_nil := h.symbols_ne_nil
  names_nodup := by
    rw [names_tableOver]
    exact a.names_nodup
  length_next := by
    intro row hrow
    obtain ⟨s, -, rfl⟩ := List.mem_map.1 hrow
    exact List.length_map _
  next_lt := by
    intro row hrow i hi
    obtain ⟨s, hs, rfl⟩ := List.mem_map.1 hrow
    obtain ⟨c, hc, rfl⟩ := List.mem_map.1 hi
    obtain ⟨u, -, -, -, hget⟩ := h.exists_transition (List.mem_map_of_mem hs) hc
    have hlt := (List.getElem?_eq_some_iff.1 hget).1
    rw [size_tableOver]
    rwa [names, stateNames, List.length_map] at hlt
  start_lt := by
    obtain ⟨s, hs, hstarting⟩ := h.states_ne_nil
    rw [size_tableOver]
    exact List.findIdx_lt_length_of_exists ⟨s, hs, hstarting⟩
  epsilon_not_mem := h.epsilon_not_mem

/-- The start of the table is the one start state. -/
theorem IsComplete.exists_start (h : a.IsComplete S) :
    ∃ p, a.starts = [p] ∧ a.names[(a.tableOver S).start]? = some p.name := by
  obtain ⟨s, hs, hstarting⟩ := h.states_ne_nil
  have hlt : a.states.findIdx State.starting < a.states.length :=
    List.findIdx_lt_length_of_exists ⟨s, hs, hstarting⟩
  have hget := List.getElem?_eq_getElem hlt
  have hmem : a.states[a.states.findIdx State.starting] ∈ a.starts :=
    List.mem_filter.2 ⟨List.mem_of_getElem? hget, List.findIdx_getElem (w := hlt)⟩
  obtain ⟨p, hp⟩ := List.length_eq_one_iff.1 h.start
  rw [hp, List.mem_singleton] at hmem
  rw [hmem] at hget
  exact ⟨p, hp, (getElem?_names_eq_some_iff a _ _).2 ⟨p, hget, rfl⟩⟩

/-! ## Paths are runs -/

/-- The edges of a complete deterministic automaton are the entries of its table. -/
theorem IsComplete.numberedEdge_iff (h : a.IsComplete S) (i : Nat) (hi : i < a.names.length)
    (v : List Char) (j : Nat) : a.NumberedEdge Label.pieces i v j ↔
      ∃ c, v = [c] ∧ (a.tableOver S).step? i c = some j := by
  obtain ⟨p, hp⟩ : ∃ p, a.names[i]? = some p := ⟨_, List.getElem?_eq_getElem hi⟩
  have hpmem : p ∈ a.names := List.mem_of_getElem? hp
  constructor
  · intro he
    obtain ⟨p', q, hp', hq, -, -, u, hu, rfl, rfl, hv⟩ := he
    obtain ⟨c, hc, rfl, hcu⟩ := (h.mem_pieces_iff hu v).1 hv
    obtain ⟨u', hu', hsource, hcu', hget⟩ := h.exists_transition (h.ends u hu).1 hc
    obtain rfl := h.transition_unique hu' hu hsource hcu' hcu
    refine ⟨c, rfl, ?_⟩
    rw [step?_tableOver a S hp', if_pos hc]
    exact congrArg some (names_getElem?_inj hget hq)
  · intro hstep
    obtain ⟨c, rfl, hstep⟩ := hstep
    rw [step?_tableOver a S hp] at hstep
    by_cases hc : c ∈ S
    · rw [if_pos hc, Option.some.injEq] at hstep
      subst hstep
      obtain ⟨u, hu, hsource, hcu, hget⟩ := h.exists_transition hpmem hc
      refine ⟨p, u.target, hp, hget, hpmem, (h.ends u hu).2, u, hu, hsource, rfl, ?_⟩
      exact (h.mem_pieces_iff hu _).2 ⟨c, hc, rfl, hcu⟩
    · rw [if_neg hc] at hstep
      cases hstep

theorem IsComplete.leads_iff_run? (h : a.IsComplete S) {i : Nat} (hi : i < a.names.length)
    (w : List Char) (j : Nat) :
    Leads (a.NumberedEdge Label.pieces) i w j ↔ (a.tableOver S).run? i w = some j := by
  constructor
  · intro hw
    induction hw with
    | nil i => rfl
    | cons he _ ih =>
        obtain ⟨c, rfl, hstep⟩ := (h.numberedEdge_iff _ hi _ _).1 he
        rw [List.singleton_append, Table.run?_cons, hstep, Option.bind_some]
        exact ih (lt_of_numberedEdge he).2
  · intro hw
    induction w generalizing i with
    | nil =>
        rw [Table.run?_nil, Option.some.injEq] at hw
        exact hw ▸ .nil i
    | cons c w ih =>
        rw [Table.run?_cons] at hw
        obtain ⟨k, hstep, hrest⟩ := Option.bind_eq_some_iff.1 hw
        have he := (h.numberedEdge_iff i hi [c] k).2 ⟨c, rfl, hstep⟩
        exact .cons (v := [c]) he (ih (lt_of_numberedEdge he).2 hrest)

/-- The paths of a complete deterministic automaton are the runs of its table. -/
theorem IsComplete.path_iff_run? (h : a.IsComplete S) {i j : Nat} {p q : String}
    (hi : a.names[i]? = some p) (hj : a.names[j]? = some q) (w : List Char) :
    Path a Label.pieces p w q ↔ (a.tableOver S).run? i w = some j := by
  rw [← leads_numbered_iff hi hj, h.leads_iff_run? (List.getElem?_eq_some_iff.1 hi).1]

/-- The same of the names that the table gives to its states. -/
theorem IsComplete.path_iff_exists_run? (h : a.IsComplete S) {i : Nat}
    (hi : i < (a.tableOver S).size) (w : List Char) (q : String) :
    Path a Label.pieces ((a.tableOver S).name i) w q ↔
      ∃ j, (a.tableOver S).run? i w = some j ∧ (a.tableOver S).name j = q := by
  have hname := getElem?_names_tableOver hi
  constructor
  · intro hpath
    obtain ⟨j, hj⟩ := List.getElem?_of_mem (hpath.mem_names (List.mem_of_getElem? hname))
    have heq := (getElem?_names_tableOver (lt_size_tableOver S hj)).symm.trans hj
    exact ⟨j, (h.path_iff_run? hname hj w).1 hpath, Option.some.inj heq⟩
  · rintro ⟨j, hrun, rfl⟩
    have hj := getElem?_names_tableOver (h.valid_tableOver.lt_of_run? hi hrun)
    exact (h.path_iff_run? hname hj w).2 hrun

end Automaton

end FiniteState
