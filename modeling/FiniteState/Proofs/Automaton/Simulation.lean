import FiniteState.Automaton.Moves
import FiniteState.BreadthFirst.Reachability
import FiniteState.Proofs.Automaton.Edges

/-!
# Following all choices at once

`accepts` runs a machine whose states are sets of states. `accepts_iff_mem_language` says
that it accepts a word exactly if some single path does. The invariant of a run is that its
set holds the ends of all walks that read what has been read. Such a set is settled: what
can be reached from a member without reading is a member already, so a walk that reads one
more character may be taken apart in front of this character.
-/

namespace FiniteState

namespace Moves

/-- The edges between numbered states: silent ones, and those that read a symbol. -/
def Edge (m : Moves) : Edges Nat := fun i v j =>
  (v = [] ∧ (i, j) ∈ m.silent) ∨ ∃ c, v = [c] ∧ (i, c, j) ∈ m.reading

theorem edge_nil_iff (m : Moves) (i j : Nat) : m.Edge i [] j ↔ (i, j) ∈ m.silent := by
  simp [Edge]

theorem edge_singleton_iff (m : Moves) (i : Nat) (c : Char) (j : Nat) :
    m.Edge i [c] j ↔ (i, c, j) ∈ m.reading := by
  simp [Edge]

/-- All moves join numbered states. -/
def Bounded (m : Moves) : Prop :=
  ∀ i v j, m.Edge i v j → i < m.names.length ∧ j < m.names.length

/-- A set that holds what can be reached from its members without reading. -/
def Settled (m : Moves) (s : StateSet) : Prop :=
  ∀ i j, s.contains i = true → (i, j) ∈ m.silent → s.contains j = true

/-! ## Closures -/

theorem mem_silentFrom (m : Moves) (i : Nat) (e : Unit × Nat) :
    e ∈ m.silentFrom i ↔ (i, e.2) ∈ m.silent := by
  obtain ⟨⟨⟩, j⟩ := e
  rw [silentFrom, List.mem_filterMap]
  constructor
  · rintro ⟨⟨i', j'⟩, hmem, he⟩
    simp only [Option.ite_none_right_eq_some, Option.some.injEq, Prod.mk.injEq, true_and]
      at he
    obtain ⟨rfl, rfl⟩ := he
    exact hmem
  · intro h
    exact ⟨(i, j), h, by simp⟩

/-- A search along silent moves finds where silent walks lead. -/
theorem reaches_silentFrom_iff (m : Moves) (i j : Nat) :
    BreadthFirst.Reaches m.silentFrom [i] j ↔ Leads m.Edge i [] j := by
  constructor
  · rintro ⟨s, hs, labels, hw⟩
    obtain rfl := List.mem_singleton.1 hs
    induction hw with
    | nil => exact .nil s
    | snoc _ he ih =>
        have hsilent := (mem_silentFrom m _ _).1 he
        exact ih.append (.single (.inl ⟨rfl, hsilent⟩))
  · intro h
    suffices hfrom : ∀ k w, Leads m.Edge k w j → w = [] →
        BreadthFirst.Reaches m.silentFrom [i] k → BreadthFirst.Reaches m.silentFrom [i] j from
      hfrom i [] h rfl (BreadthFirst.reaches_start _ _ i List.mem_cons_self)
    clear h
    intro k w hw
    induction hw with
    | nil k => exact fun _ hk => hk
    | @cons k l _ v w he _ ih =>
        intro hnil hk
        obtain ⟨rfl, rfl⟩ := List.append_eq_nil_iff.1 hnil
        rcases he with ⟨-, hsilent⟩ | ⟨c, hc, -⟩
        · exact ih rfl (hk.next ((mem_silentFrom m k ((), l)).2 hsilent))
        · cases hc

variable {m : Moves}

theorem endsBy_silentFrom (hm : m.Bounded) {i : Nat} (hi : i < m.names.length) :
    BreadthFirst.EndsBy m.silentFrom m.names.length [i] := by
  refine ⟨List.nodup_singleton i, List.range m.names.length,
    List.forall_mem_singleton.2 (List.mem_range.2 hi), ?_, List.length_range.le⟩
  intro k _ e he
  have hsilent := (mem_silentFrom m k e).1 he
  exact List.mem_range.2 (hm k [] e.2 (.inl ⟨rfl, hsilent⟩)).2

theorem contains_closureOf (hm : m.Bounded) {i : Nat} (hi : i < m.names.length) (j : Nat) :
    (m.closureOf i).contains j = true ↔ Leads m.Edge i [] j := by
  rw [closureOf, StateSet.contains_ofList, decide_eq_true_iff,
    (endsBy_silentFrom hm hi).mem_nodes_iff, reaches_silentFrom_iff]

theorem closureIn_closures (m : Moves) {i : Nat} (hi : i < m.names.length) :
    closureIn m.closures i = m.closureOf i := by
  have hget : m.closures[i]? = some (m.closureOf i) := by
    simp [closures, hi]
  rw [closureIn, hget]
  rfl

theorem contains_closeWith (hm : m.Bounded) (s : StateSet) (j : Nat) :
    (m.closeWith m.closures s).contains j = true ↔
      ∃ i < m.names.length, s.contains i = true ∧ Leads m.Edge i [] j := by
  rw [closeWith, StateSet.contains_unionAll, List.any_map, List.any_eq_true]
  simp only [StateSet.mem_below, Function.comp_apply]
  constructor
  · rintro ⟨i, ⟨hi, hs⟩, hj⟩
    rw [closureIn_closures m hi, contains_closureOf hm hi] at hj
    exact ⟨i, hi, hs, hj⟩
  · rintro ⟨i, hi, hs, hw⟩
    refine ⟨i, ⟨hi, hs⟩, ?_⟩
    rw [closureIn_closures m hi]
    exact (contains_closureOf hm hi j).2 hw

theorem contains_stepWith (hm : m.Bounded) (s : StateSet) (c : Char) (j : Nat) :
    (m.stepWith m.closures s c).contains j = true ↔
      ∃ i k, s.contains i = true ∧ (i, c, k) ∈ m.reading ∧ Leads m.Edge k [] j := by
  rw [stepWith, StateSet.contains_unionAll, List.any_eq_true]
  simp only [List.mem_filterMap, Option.ite_none_right_eq_some, Option.some.injEq]
  constructor
  · rintro ⟨_, ⟨⟨i, d, k⟩, hmem, ⟨rfl, hs⟩, rfl⟩, hj⟩
    have hk : k < m.names.length := (hm i [d] k (.inr ⟨d, rfl, hmem⟩)).2
    rw [closureIn_closures m hk, contains_closureOf hm hk] at hj
    exact ⟨i, k, hs, hmem, hj⟩
  · rintro ⟨i, k, hs, hmem, hw⟩
    have hk : k < m.names.length := (hm i [c] k (.inr ⟨c, rfl, hmem⟩)).2
    refine ⟨m.closureOf k, ⟨(i, c, k), hmem, ⟨rfl, hs⟩, closureIn_closures m hk⟩, ?_⟩
    exact (contains_closureOf hm hk j).2 hw

theorem settled_closeWith (hm : m.Bounded) (s : StateSet) :
    m.Settled (m.closeWith m.closures s) := by
  intro i j hi hij
  obtain ⟨k, hk, hs, hw⟩ := (contains_closeWith hm s i).1 hi
  exact (contains_closeWith hm s j).2 ⟨k, hk, hs, hw.append (.single (.inl ⟨rfl, hij⟩))⟩

theorem settled_stepWith (hm : m.Bounded) (s : StateSet) (c : Char) :
    m.Settled (m.stepWith m.closures s c) := by
  intro i j hi hij
  obtain ⟨k, l, hs, hmem, hw⟩ := (contains_stepWith hm s c i).1 hi
  exact (contains_stepWith hm s c j).2
    ⟨k, l, hs, hmem, hw.append (.single (.inl ⟨rfl, hij⟩))⟩

/-! ## Runs -/

/-- A walk that reads something is taken apart at the first move that reads. -/
theorem leads_cons_iff (m : Moves) (i : Nat) (c : Char) (w : List Char) (j : Nat) :
    Leads m.Edge i (c :: w) j ↔
      ∃ p q, Leads m.Edge i [] p ∧ (p, c, q) ∈ m.reading ∧ Leads m.Edge q w j := by
  constructor
  · intro h
    generalize hu : c :: w = u at h
    induction h with
    | nil => cases hu
    | @cons i k j v u he hrest ih =>
        rcases he with ⟨rfl, hsilent⟩ | ⟨d, rfl, hreading⟩
        · obtain ⟨p, q, hp, hpq, hq⟩ := ih hu
          exact ⟨p, q, .cons (.inl ⟨rfl, hsilent⟩) hp, hpq, hq⟩
        · obtain ⟨rfl, rfl⟩ := List.cons.inj hu
          exact ⟨i, k, .nil i, hreading, hrest⟩
  · rintro ⟨p, q, hp, hpq, hq⟩
    exact hp.append (.cons (.inr ⟨c, rfl, hpq⟩) hq)

/-- A settled set holds the ends of the silent walks from its members. -/
theorem Settled.of_leads_nil {s : StateSet} (hs : m.Settled s) {i j : Nat}
    (hi : s.contains i = true) (h : Leads m.Edge i [] j) : s.contains j = true := by
  generalize hw : ([] : List Char) = w at h
  induction h with
  | nil i => exact hi
  | @cons i k j v w he _ ih =>
      obtain ⟨rfl, rfl⟩ := List.append_eq_nil_iff.1 hw.symm
      rcases he with ⟨-, hsilent⟩ | ⟨c, hc, -⟩
      · exact ih (hs i k hi hsilent) rfl
      · cases hc

/-- The set after a word holds the ends of the walks that read the word. -/
theorem contains_runFrom (hm : m.Bounded) {s : StateSet} (hs : m.Settled s)
    (w : List Char) (j : Nat) : (m.machine.runFrom s w).contains j = true ↔
      ∃ i, s.contains i = true ∧ Leads m.Edge i w j := by
  induction w generalizing s with
  | nil =>
      rw [Machine.runFrom_nil]
      constructor
      · exact fun hj => ⟨j, hj, .nil j⟩
      · rintro ⟨i, hi, hw⟩
        exact hs.of_leads_nil hi hw
  | cons c w ih =>
      have hstep : m.machine.step s c = m.stepWith m.closures s c := rfl
      rw [Machine.runFrom_cons, hstep, ih (settled_stepWith hm s c)]
      constructor
      · rintro ⟨k, hk, hw⟩
        obtain ⟨p, q, hp, hpq, hq⟩ := (contains_stepWith hm s c k).1 hk
        refine ⟨p, hp, ?_⟩
        exact .cons (v := [c]) (.inr ⟨c, rfl, hpq⟩) (hq.append hw)
      · rintro ⟨i, hi, hw⟩
        obtain ⟨p, q, hp, hpq, hq⟩ := (leads_cons_iff m i c w j).1 hw
        refine ⟨q, (contains_stepWith hm s c q).2 ⟨p, q, ?_, hpq, .nil q⟩, hq⟩
        exact hs.of_leads_nil hi hp

theorem contains_run (hm : m.Bounded) (w : List Char) (j : Nat) :
    (m.machine.run w).contains j = true ↔
      ∃ i < m.names.length, m.starts.contains i = true ∧ Leads m.Edge i w j := by
  have hstart : m.machine.start = m.closeWith m.closures m.starts := rfl
  rw [Machine.run, hstart, contains_runFrom hm (settled_closeWith hm m.starts)]
  constructor
  · rintro ⟨k, hk, hw⟩
    obtain ⟨i, hi, hs, hik⟩ := (contains_closeWith hm m.starts k).1 hk
    exact ⟨i, hi, hs, hik.append hw⟩
  · rintro ⟨i, hi, hs, hw⟩
    exact ⟨i, (contains_closeWith hm m.starts i).2 ⟨i, hi, hs, .nil i⟩, hw⟩

/-! ## The moves of an automaton -/

theorem mem_numbersOf (p : State → Bool) (k : Nat) (states : List State) (i : Nat) :
    i ∈ numbersOf p k states ↔ ∃ j s, i = k + j ∧ states[j]? = some s ∧ p s = true := by
  induction states generalizing k with
  | nil => simp [numbersOf]
  | cons s states ih =>
      have hrest : (∃ j u, i = k + j ∧ (s :: states)[j]? = some u ∧ p u = true) ↔
          (i = k ∧ p s = true) ∨
            ∃ j u, i = k + 1 + j ∧ states[j]? = some u ∧ p u = true := by
        constructor
        · rintro ⟨j, u, rfl, hj, hp⟩
          cases j with
          | zero =>
              cases hj
              exact .inl ⟨rfl, hp⟩
          | succ j => exact .inr ⟨j, u, by omega, hj, hp⟩
        · rintro (⟨rfl, hp⟩ | ⟨j, u, rfl, hj, hp⟩)
          · exact ⟨0, s, rfl, rfl, hp⟩
          · exact ⟨j + 1, u, by omega, hj, hp⟩
      rw [numbersOf, hrest, ← ih (k + 1)]
      by_cases hp : p s = true
      · simp [hp]
      · simp [hp]

theorem contains_starts (a : Automaton) (i : Nat) :
    (ofAutomaton a).starts.contains i = true ↔
      ∃ s, a.states[i]? = some s ∧ s.starting = true := by
  rw [ofAutomaton, StateSet.contains_ofList, decide_eq_true_iff, mem_numbersOf]
  simp

theorem contains_accepting (a : Automaton) (i : Nat) :
    (ofAutomaton a).accepting.contains i = true ↔
      ∃ s, a.states[i]? = some s ∧ s.accepting = true := by
  rw [ofAutomaton, StateSet.contains_ofList, decide_eq_true_iff, mem_numbersOf]
  simp

theorem numbered?_eq_some_iff (a : Automaton) (t : Transition) (i j : Nat) (l : Label) :
    numbered? a.names t = some (i, j, l) ↔
      a.names[i]? = some t.source ∧ a.names[j]? = some t.target ∧ t.label = l := by
  rw [← Automaton.idxOf?_names_eq_some_iff, ← Automaton.idxOf?_names_eq_some_iff, numbered?]
  cases hs : a.names.idxOf? t.source with
  | none => simp
  | some i' =>
      cases ht : a.names.idxOf? t.target with
      | none => simp
      | some j' => simp

theorem mem_silent_ofAutomaton (a : Automaton) (i j : Nat) :
    (i, j) ∈ (ofAutomaton a).silent ↔
      ∃ t ∈ a.transitions, a.names[i]? = some t.source ∧ a.names[j]? = some t.target ∧
        t.label.hasEpsilon = true := by
  simp only [ofAutomaton, List.mem_map, List.mem_filter, List.mem_filterMap, Prod.exists,
    numbered?_eq_some_iff, Prod.mk.injEq]
  constructor
  · rintro ⟨_, _, l, ⟨⟨t, ht, hi, hj, rfl⟩, hl⟩, rfl, rfl⟩
    exact ⟨t, ht, hi, hj, hl⟩
  · rintro ⟨t, ht, hi, hj, hl⟩
    exact ⟨i, j, t.label, ⟨⟨t, ht, hi, hj, rfl⟩, hl⟩, rfl, rfl⟩

theorem mem_reading_ofAutomaton (a : Automaton) (i : Nat) (c : Char) (j : Nat) :
    (i, c, j) ∈ (ofAutomaton a).reading ↔
      ∃ t ∈ a.transitions, a.names[i]? = some t.source ∧ a.names[j]? = some t.target ∧
        c ∈ t.label.symbols := by
  simp only [ofAutomaton, List.mem_flatMap, List.mem_map, List.mem_filterMap, Prod.exists,
    numbered?_eq_some_iff, Prod.mk.injEq]
  constructor
  · rintro ⟨_, _, l, ⟨t, ht, hi, hj, rfl⟩, _, hc, rfl, rfl, rfl⟩
    exact ⟨t, ht, hi, hj, hc⟩
  · rintro ⟨t, ht, hi, hj, hc⟩
    exact ⟨i, j, t.label, ⟨t, ht, hi, hj, rfl⟩, c, hc, rfl, rfl, rfl⟩

/-- The moves of an automaton are its edges between positions. -/
theorem edge_ofAutomaton (a : Automaton) :
    (ofAutomaton a).Edge = a.NumberedEdge Label.pieces := by
  funext i v j
  refine propext ?_
  have hedge : (ofAutomaton a).Edge i v j ↔ (v = [] ∧ (i, j) ∈ (ofAutomaton a).silent) ∨
      ∃ c, v = [c] ∧ (i, c, j) ∈ (ofAutomaton a).reading := Iff.rfl
  rw [hedge, mem_silent_ofAutomaton]
  simp only [mem_reading_ofAutomaton]
  constructor
  · rintro (⟨hv, t, ht, hi, hj, hl⟩ | ⟨c, hv, t, ht, hi, hj, hc⟩)
    · exact ⟨_, _, hi, hj, List.mem_of_getElem? hi, List.mem_of_getElem? hj, t, ht, rfl, rfl,
        (Label.mem_pieces_iff _ v).2 (.inl ⟨hv, hl⟩)⟩
    · exact ⟨_, _, hi, hj, List.mem_of_getElem? hi, List.mem_of_getElem? hj, t, ht, rfl, rfl,
        (Label.mem_pieces_iff _ v).2 (.inr ⟨c, hc, hv⟩)⟩
  · rintro ⟨_, _, hi, hj, -, -, t, ht, rfl, rfl, hv⟩
    rcases (Label.mem_pieces_iff _ v).1 hv with ⟨hv, hl⟩ | ⟨c, hc, hv⟩
    · exact .inl ⟨hv, t, ht, hi, hj, hl⟩
    · exact .inr ⟨c, hv, t, ht, hi, hj, hc⟩

theorem length_names_ofAutomaton (a : Automaton) :
    (ofAutomaton a).names.length = a.states.length :=
  a.length_names

theorem bounded_ofAutomaton (a : Automaton) : (ofAutomaton a).Bounded := by
  intro i v j he
  rw [edge_ofAutomaton] at he
  exact Automaton.lt_of_numberedEdge he

end Moves

namespace Automaton

/-- Following all choices at once accepts what single paths accept. -/
theorem accepts_iff_mem_language (a : Automaton) (w : List Char) :
    a.accepts w = true ↔ w ∈ a.language := by
  have haccepts : a.accepts w = true ↔
      ((Moves.ofAutomaton a).machine.run w).meets (Moves.ofAutomaton a).accepting = true :=
    Iff.rfl
  rw [haccepts, StateSet.meets_iff, language, mem_languageOver_iff_numbered]
  simp only [Moves.contains_run (Moves.bounded_ofAutomaton a), Moves.contains_starts,
    Moves.contains_accepting, Moves.edge_ofAutomaton, Moves.length_names_ofAutomaton]
  constructor
  · rintro ⟨j, ⟨i, -, ⟨s, hs, hstarting⟩, hw⟩, u, hu, haccepting⟩
    exact ⟨i, s, hs, hstarting, j, u, hu, haccepting, hw⟩
  · rintro ⟨i, s, hs, hstarting, j, u, hu, haccepting, hw⟩
    have hi := (List.getElem?_eq_some_iff.1 hs).1
    exact ⟨j, ⟨i, hi, ⟨s, hs, hstarting⟩, hw⟩, u, hu, haccepting⟩

end Automaton

end FiniteState
