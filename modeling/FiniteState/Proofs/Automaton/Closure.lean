import FiniteState.Proofs.Automaton.Simulation

/-!
# Closures

Following all choices at once means to be in all states that can be reached without reading, at
the start and after each symbol. `IsClosure` says what these sets are, without regard to how they
are found: the least sets that hold some states and can only be left by reading. The searches
behind them end by themselves, however the silent transitions are linked to circles, and with
them `accepts` is what single paths accept.
-/

namespace FiniteState

namespace Automaton

/-- The set cannot be left without reading. -/
def Closed (a : Automaton) (s : StateSet) : Prop :=
  ∀ i j, s.contains i = true → a.NumberedEdge Label.pieces i [] j → s.contains j = true

/-- The least set that holds the states with a property and cannot be left without reading. -/
structure IsClosure (a : Automaton) (P : Nat → Prop) (s : StateSet) : Prop where
  contains : ∀ i, P i → s.contains i = true
  closed : a.Closed s
  least : ∀ t : StateSet, (∀ i, P i → t.contains i = true) → a.Closed t →
    ∀ i, s.contains i = true → t.contains i = true

/-- A set that cannot be left without reading holds the ends of the silent walks from it. -/
theorem Closed.of_leads {a : Automaton} {s : StateSet} (hs : a.Closed s) {i j : Nat}
    (hi : s.contains i = true) (h : Leads (a.NumberedEdge Label.pieces) i [] j) :
    s.contains j = true := by
  rw [← Moves.edge_ofAutomaton] at h
  have hsettled : (Moves.ofAutomaton a).Settled s := by
    intro k l hk hkl
    refine hs k l hk ?_
    rwa [← Moves.edge_ofAutomaton, Moves.edge_nil_iff]
  exact hsettled.of_leads_nil hi h

/-- A closure holds the ends of silent walks. -/
theorem isClosure_of_leads {a : Automaton} {P : Nat → Prop} {s : StateSet}
    (h : ∀ j, s.contains j = true ↔ ∃ i, P i ∧ Leads (a.NumberedEdge Label.pieces) i [] j) :
    a.IsClosure P s where
  contains := fun i hi => (h i).2 ⟨i, hi, .nil i⟩
  closed := by
    intro i j hi he
    obtain ⟨k, hk, hw⟩ := (h i).1 hi
    exact (h j).2 ⟨k, hk, hw.append (.single he)⟩
  least := by
    intro t ht hclosed j hj
    obtain ⟨i, hi, hw⟩ := (h j).1 hj
    exact hclosed.of_leads (ht i hi) hw

end Automaton

namespace Moves

open Automaton (IsClosure)

/-- The states that can be reached without reading from a set. -/
theorem isClosure_closeWith (a : Automaton) (s : StateSet) :
    a.IsClosure (fun i => i < a.states.length ∧ s.contains i = true)
      ((ofAutomaton a).closeWith (ofAutomaton a).closures s) := by
  refine Automaton.isClosure_of_leads fun j => ?_
  rw [contains_closeWith (bounded_ofAutomaton a), edge_ofAutomaton, length_names_ofAutomaton]
  simp only [and_assoc]

/-- The states that can be reached from a set by reading one symbol and no more. -/
theorem isClosure_stepWith (a : Automaton) (s : StateSet) (c : Char) :
    a.IsClosure (fun k => ∃ i, s.contains i = true ∧ a.NumberedEdge Label.pieces i [c] k)
      ((ofAutomaton a).stepWith (ofAutomaton a).closures s c) := by
  refine Automaton.isClosure_of_leads fun j => ?_
  rw [contains_stepWith (bounded_ofAutomaton a)]
  simp only [← edge_singleton_iff, edge_ofAutomaton]
  constructor
  · rintro ⟨i, k, hi, hik, hw⟩
    exact ⟨k, ⟨i, hi, hik⟩, hw⟩
  · rintro ⟨k, ⟨i, hi, hik⟩, hw⟩
    exact ⟨i, k, hi, hik, hw⟩

end Moves

namespace Automaton

/-- Following all choices at once accepts the words that some path from a starting state to an
accepting state reads. The search for what is reached without reading ends before it meets its
bound, and the sets of states at the start and after each symbol are the closures. -/
theorem accepts_iff_exists_path (a : Automaton) :
    (∀ w, a.accepts w = true ↔
      ∃ p ∈ a.starts, ∃ q ∈ a.acceptings, Path a Label.pieces p.name w q.name) ∧
    (∀ i < a.states.length, ∀ bound, a.states.length ≤ bound →
      BreadthFirst.search (Moves.ofAutomaton a).silentFrom bound [i] =
        BreadthFirst.search (Moves.ofAutomaton a).silentFrom a.states.length [i]) ∧
    (∀ s, a.IsClosure (fun i => i < a.states.length ∧ s.contains i = true)
      ((Moves.ofAutomaton a).closeWith (Moves.ofAutomaton a).closures s)) ∧
    ∀ s c, a.IsClosure (fun k => ∃ i, s.contains i = true ∧ a.NumberedEdge Label.pieces i [c] k)
      ((Moves.ofAutomaton a).stepWith (Moves.ofAutomaton a).closures s c) := by
  refine ⟨fun w => ?_, fun i hi bound hbound => ?_, Moves.isClosure_closeWith a,
    Moves.isClosure_stepWith a⟩
  · rw [accepts_iff_mem_language, language, mem_languageOver]
  · rw [← Moves.length_names_ofAutomaton] at hi hbound ⊢
    exact (Moves.endsBy_silentFrom (Moves.bounded_ofAutomaton a) hi).search_eq_of_le hbound

end Automaton

end FiniteState
