import FiniteState.Proofs.Automaton.Compare
import FiniteState.Proofs.Automaton.Minimise
import FiniteState.Proofs.Table.Pairing
import FiniteState.Proofs.Table.Refinement

/-!
# The canonical form

Minimal automata that accept the same words are the same up to the names of their states: a
state corresponds to where the words that lead to it lead in the other automaton. Words that
lead to one state on one side lead to one state on the other, as no two states are alike on
either side. So automata are equivalent exactly if their minimal automata are isomorphic, and
minimising decides equivalence.
-/

namespace FiniteState

namespace Table

variable {t u : Table}

/-- The table has no state to spare. -/
structure Minimal (t : Table) : Prop where
  reached : ∀ i < t.size, t.LeadsTo i
  apart : ∀ i < t.size, ∀ j < t.size, t.Alike i j → i = j

theorem minimal_minimise (ht : t.WellFormed) : t.minimise.Minimal where
  reached := fun _ hi => leadsTo_minimise ht hi
  apart := fun _ hi _ hj h => eq_of_alike_minimise ht hi hj h

/-- All words that lead to one state of a table lead to one state of a minimal table with the
same verdicts. -/
theorem refines_of_minimal (ht : t.WellFormed) (hu : u.WellFormed)
    (halphabet : u.alphabet = t.alphabet) (hum : u.Minimal)
    (hsame : ∀ w, t.verdict w = u.verdict w) : t.Refines u := by
  intro v w i hv hw
  obtain ⟨j, hj⟩ := ht.exists_run? hu halphabet hv
  obtain ⟨k, hk⟩ := ht.exists_run? hu halphabet hw
  rw [hj, hk, eq_of_run?_eq hu hum.apart (fun w => by rw [hsame w]) hj hk hv hw]

section

variable (ht : t.WellFormed) (hu : u.WellFormed) (halphabet : u.alphabet = t.alphabet)
  (htm : t.Minimal) (hum : u.Minimal) (hsame : ∀ w, u.verdict w = t.verdict w)

include ht hu halphabet htm hum hsame

theorem size_eq_of_minimal : t.size = u.size := by
  have hle := size_le_of_alike_eq ht htm.apart (fun w => by rw [hsame w]) hu halphabet htm.reached
  have hge := size_le_of_alike_eq hu hum.apart (fun w => by rw [hsame w]) ht halphabet.symm
    hum.reached
  exact Nat.le_antisymm hle hge

/-- Minimal tables with the same verdicts correspond. -/
theorem corresponds_of_minimal : ∃ f, t.Corresponds u f :=
  (refines_of_minimal ht hu halphabet hum fun w => (hsame w).symm).exists_corresponds
    (refines_of_minimal hu ht halphabet.symm htm hsame) ht hu halphabet hsame

end

/-- Minimising makes tables over one alphabet isomorphic if they say the same of every word. -/
theorem isomorphic_minimise_iff (ht : t.WellFormed) (hu : u.WellFormed) :
    t.minimise.isomorphic u.minimise = true ↔
      t.alphabet = u.alphabet ∧ ∀ w, t.verdict w = u.verdict w := by
  have htm := wellFormed_minimise ht
  have hum := wellFormed_minimise hu
  rw [isomorphic_iff htm hum]
  constructor
  · rintro ⟨-, halphabet, f, hf⟩
    refine ⟨halphabet, fun w => ?_⟩
    rw [← verdict_minimise ht w, ← verdict_minimise hu w, hf.verdict_eq w]
  · rintro ⟨halphabet, hsame⟩
    have hsame' : ∀ w, u.minimise.verdict w = t.minimise.verdict w := by
      intro w
      rw [verdict_minimise ht, verdict_minimise hu, hsame w]
    refine ⟨?_, halphabet, ?_⟩
    · exact size_eq_of_minimal htm hum halphabet.symm (minimal_minimise ht) (minimal_minimise hu)
        hsame'
    · exact corresponds_of_minimal htm hum halphabet.symm (minimal_minimise ht)
        (minimal_minimise hu) hsame'

end Table

namespace Automaton

variable {a b : Automaton} {S T : Alphabet}

theorem isomorphic_toAutomaton {t u : Table} (ht : t.Valid) (hu : u.Valid) :
    t.toAutomaton.isomorphic u.toAutomaton = t.isomorphic u := by
  rw [isomorphic, ht.table?_toAutomaton, hu.table?_toAutomaton]

/-- Two complete deterministic automata are equivalent exactly if their minimal automata, which
both exist, are isomorphic. -/
theorem equivalent_iff_isomorphic_minimise (ha : a.validate none = .ok S)
    (hb : b.validate none = .ok T) : ∃ m n, a.minimise = .ok m ∧ b.minimise = .ok n ∧
      (a.equivalent b = .ok true ↔ m.isomorphic n = true) := by
  have hac := (validate_none_eq_ok_iff a S).1 ha
  have hbc := (validate_none_eq_ok_iff b T).1 hb
  have hat := hac.valid_tableOver
  have hbt := hbc.valid_tableOver
  refine ⟨_, _, hac.minimise_eq, hbc.minimise_eq, ?_⟩
  obtain ⟨e, he, hiff⟩ := hac.exists_equivalent hbc
  have hverdict : (∀ w, a.verdict w = b.verdict w) ↔
      ∀ w, (a.tableOver S).verdict w = (b.tableOver T).verdict w := by
    simp only [hac.verdict_eq, hbc.verdict_eq]
  rw [he, Except.ok.injEq, hiff, isomorphic_toAutomaton hat.minimise hbt.minimise, hverdict]
  exact (Table.isomorphic_minimise_iff hat.toWellFormed hbt.toWellFormed).symm

/-- Two states that are left for each other. -/
def twoCycle : Automaton :=
  ofLists [⟨"A", true, true, none⟩, ⟨"B", false, false, none⟩]
    [⟨"A", "B", ⟨["a"]⟩⟩, ⟨"B", "A", ⟨["a"]⟩⟩]

/-- The same language with two states to spare. -/
def fourCycle : Automaton :=
  ofLists
    [⟨"0", true, true, none⟩, ⟨"1", false, false, none⟩, ⟨"2", false, true, none⟩,
     ⟨"3", false, false, none⟩]
    [⟨"0", "1", ⟨["a"]⟩⟩, ⟨"1", "2", ⟨["a"]⟩⟩, ⟨"2", "3", ⟨["a"]⟩⟩, ⟨"3", "0", ⟨["a"]⟩⟩]

/-- Cycles of two and of four states have isomorphic minimal automata. -/
theorem isomorphic_minimise_fourCycle :
    twoCycle.validate none = .ok (Alphabet.ofList ['a']) ∧
      fourCycle.validate none = .ok (Alphabet.ofList ['a']) ∧
      ∃ m n, twoCycle.minimise = .ok m ∧ fourCycle.minimise = .ok n ∧
        m.isomorphic n = true := by
  have htwo : twoCycle.validate none = .ok (Alphabet.ofList ['a']) := by decide +kernel
  have hfour : fourCycle.validate none = .ok (Alphabet.ofList ['a']) := by decide +kernel
  have hequivalent : twoCycle.equivalent fourCycle = .ok true := by decide +kernel
  obtain ⟨m, n, hm, hn, hiff⟩ := equivalent_iff_isomorphic_minimise htwo hfour
  exact ⟨htwo, hfour, m, n, hm, hn, hiff.1 hequivalent⟩

end Automaton

end FiniteState
