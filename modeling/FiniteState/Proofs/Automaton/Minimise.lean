import FiniteState.Proofs.Automaton.Table
import FiniteState.Proofs.Table.Quotient

/-!
# Minimal automata

What minimal means is said of the graph of an automaton and its paths: every state is reached,
words tell different states apart, and no complete deterministic automaton over the alphabet
that accepts the same words has fewer states. The paths are runs of the table, so all of it
follows from the minimal table.
-/

namespace FiniteState.Automaton

/-- The words that lead from a state to an accepting state. -/
def languageFrom (a : Automaton) (p : String) : Language Char :=
  {w | ∃ q ∈ a.acceptings, Path a Label.pieces p w q.name}

/-- The automaton is complete and deterministic over `S` and has no state to spare. -/
structure IsMinimal (a : Automaton) (S : Alphabet) : Prop where
  validate_eq : a.validate none = .ok S
  reached : ∀ q ∈ a.names, ∃ p ∈ a.starts, ∃ w, Path a Label.pieces p.name w q
  apart : ∀ p ∈ a.names, ∀ q ∈ a.names, p ≠ q →
    ∃ w, ¬ (w ∈ a.languageFrom p ↔ w ∈ a.languageFrom q)
  least : ∀ b : Automaton, b.validate none = .ok S →
    (∀ w, b.verdict w = .accept ↔ a.verdict w = .accept) → a.states.length ≤ b.states.length

variable {a : Automaton} {S : Alphabet}

namespace IsComplete

/-- The words that are accepted from a state, told by the table. -/
theorem mem_languageFrom_iff (h : a.IsComplete S) {i : Nat} {p : String}
    (hp : a.names[i]? = some p) (w : List Char) :
    w ∈ a.languageFrom p ↔ (a.tableOver S).verdictFrom i w = .accept := by
  have hlanguage : w ∈ a.languageFrom p ↔
      ∃ q ∈ a.acceptings, Path a Label.pieces p w q.name := Iff.rfl
  rw [hlanguage, Table.verdictFrom_eq_accept_iff]
  constructor
  · intro hw
    obtain ⟨q, hq, hpath⟩ := hw
    obtain ⟨hmem, haccepting⟩ := List.mem_filter.1 hq
    obtain ⟨j, hj⟩ := List.getElem?_of_mem hmem
    have hname := (getElem?_names_eq_some_iff a j q.name).2 ⟨q, hj, rfl⟩
    exact ⟨j, (h.path_iff_run? hp hname w).1 hpath, (accepting_tableOver a S hj).trans haccepting⟩
  · intro hw
    obtain ⟨j, hrun, haccepting⟩ := hw
    have hj := h.valid_tableOver.lt_of_run? (lt_size_tableOver S hp) hrun
    rw [size_tableOver] at hj
    have hget := List.getElem?_eq_getElem hj
    have hname := (getElem?_names_eq_some_iff a j _).2 ⟨_, hget, rfl⟩
    rw [accepting_tableOver a S hget] at haccepting
    refine ⟨_, List.mem_filter.2 ⟨List.mem_of_getElem? hget, haccepting⟩, ?_⟩
    exact (h.path_iff_run? hp hname w).2 hrun

/-- An automaton is minimal if the states of its table are all reached and no two are alike. -/
theorem isMinimal (h : a.IsComplete S)
    (hreached : ∀ i < (a.tableOver S).size, (a.tableOver S).LeadsTo i)
    (hapart : ∀ i < (a.tableOver S).size, ∀ j < (a.tableOver S).size,
      (a.tableOver S).Alike i j → i = j) : a.IsMinimal S := by
  have ht := h.valid_tableOver
  constructor
  case validate_eq => exact (validate_none_eq_ok_iff a S).2 h
  case reached =>
    intro q hq
    obtain ⟨i, hi⟩ := List.getElem?_of_mem hq
    obtain ⟨p, hp, hstart⟩ := h.exists_start
    obtain ⟨w, hw⟩ := hreached i (lt_size_tableOver S hi)
    exact ⟨p, hp ▸ List.mem_singleton_self p, w, (h.path_iff_run? hstart hi w).2 hw⟩
  case apart =>
    intro p hp q hq hne
    obtain ⟨i, hi⟩ := List.getElem?_of_mem hp
    obtain ⟨j, hj⟩ := List.getElem?_of_mem hq
    by_contra hnone
    have hsame : ∀ w, w ∈ a.languageFrom p ↔ w ∈ a.languageFrom q := by
      intro w
      by_contra hw
      exact hnone ⟨w, hw⟩
    have halike : (a.tableOver S).Alike i j := by
      refine ht.alike_of_accept_iff (lt_size_tableOver S hi) (lt_size_tableOver S hj) fun w => ?_
      rw [← h.mem_languageFrom_iff hi, ← h.mem_languageFrom_iff hj]
      exact hsame w
    have hij := hapart i (lt_size_tableOver S hi) j (lt_size_tableOver S hj) halike
    rw [hij, hj, Option.some.injEq] at hi
    exact hne hi.symm
  case least =>
    intro b hb hsame
    have hbc := (validate_none_eq_ok_iff b S).1 hb
    have hverdict : ∀ w, (b.tableOver S).verdict w = .accept ↔
        (a.tableOver S).verdict w = .accept := by
      intro w
      rw [← hbc.verdict_eq, ← h.verdict_eq]
      exact hsame w
    have hle := Table.size_le_of_alike_eq ht.toWellFormed hapart hverdict
      hbc.valid_tableOver.toWellFormed rfl hreached
    rwa [size_tableOver, size_tableOver] at hle

end IsComplete

/-- The automaton of a valid table has this table. -/
theorem tableOver_toAutomaton {t : Table} (ht : t.Valid) :
    t.toAutomaton.tableOver t.alphabet = t := by
  have htable := ht.isComplete_toAutomaton.table?
  rw [ht.table?_toAutomaton] at htable
  exact (Except.ok.inj htable).symm

/-- The automaton of a minimal table is minimal. -/
theorem isMinimal_toAutomaton {t : Table} (ht : t.Valid) :
    t.minimise.toAutomaton.IsMinimal t.alphabet := by
  have htm := ht.minimise
  apply htm.isComplete_toAutomaton.isMinimal
  · rw [tableOver_toAutomaton htm]
    exact fun i hi => Table.leadsTo_minimise ht.toWellFormed hi
  · rw [tableOver_toAutomaton htm]
    exact fun i hi j hj h => Table.eq_of_alike_minimise ht.toWellFormed hi hj h

theorem minimise_eq_error {d : Defect} (h : a.validate none = .error d) :
    a.minimise = .error d := by
  rw [minimise, table?_eq_error h]

/-- The minimal automaton of a complete deterministic one. -/
theorem IsComplete.minimise_eq (h : a.IsComplete S) :
    a.minimise = .ok (a.tableOver S).minimise.toAutomaton := by
  rw [minimise, h.table?]

/-- Minimising an automaton that is complete and deterministic over `S` gives a minimal one
over `S` with the same verdicts. Of any other automaton it gives the defect. -/
theorem minimise_correct (a : Automaton) :
    match a.validate none with
    | .error d => a.minimise = .error d
    | .ok S => ∃ m, a.minimise = .ok m ∧ m.IsMinimal S ∧ ∀ w, m.verdict w = a.verdict w := by
  cases hS : a.validate none with
  | error d => exact minimise_eq_error hS
  | ok S =>
      have h := (validate_none_eq_ok_iff a S).1 hS
      have ht := h.valid_tableOver
      refine ⟨_, h.minimise_eq, isMinimal_toAutomaton ht, fun w => ?_⟩
      rw [ht.minimise.verdict_toAutomaton, Table.verdict_minimise ht.toWellFormed, h.verdict_eq]

end FiniteState.Automaton
