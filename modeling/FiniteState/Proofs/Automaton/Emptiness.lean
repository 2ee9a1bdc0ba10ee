import FiniteState.BreadthFirst.Parents
import FiniteState.Proofs.Automaton.Simulation
import FiniteState.Proofs.Automaton.Witness

/-!
# Emptiness

Whether an automaton accepts a word at all is decided by the search for one, though it looks at
the least symbol of each label only and never at sets of states. This asks nothing of the
automaton: it may have several start states, labels that hold anything, cycles without a symbol
and transitions to states that do not exist. The word is read off the way back from the accepting
state.
-/

namespace FiniteState.Automaton

/-- From every state that the search finds the way back ends at a start state. -/
theorem tracesBack_of_mem_visits {a : Automaton} {v : Visit String (Option Char)}
    (h : v ∈ a.visits) :
    ∃ p ∈ a.starts, BreadthFirst.TracesBack a.visits v.node v.labels p.name := by
  obtain ⟨_, hs, hback⟩ := a.endsBy_ways.tracesBack_of_mem_search h
  obtain ⟨p, hp, rfl⟩ := List.mem_map.1 hs
  exact ⟨p, hp, hback⟩

/-- A word that is found is what is read on the way back from an accepting state. -/
theorem tracesBack_of_witness? {a : Automaton} {w : List Char} (h : a.witness? = some w) :
    ∃ p ∈ a.starts, ∃ q ∈ a.acceptings, ∃ labels,
      BreadthFirst.TracesBack a.visits q.name labels p.name ∧ labels.filterMap id = w := by
  obtain ⟨v, hv, q, hq, hname, hw⟩ := exists_visit_of_witness? h
  obtain ⟨p, hp, hback⟩ := tracesBack_of_mem_visits hv
  exact ⟨p, hp, q, hq, v.labels, hname ▸ hback, hw⟩

/-- A word that is found is accepted, and none is found only if none is accepted. The word is what
is read on the way back from an accepting state. From wherever the search has come to there is
one way back, from parent to parent, and it ends at a start state. -/
theorem witness?_sound_complete (a : Automaton) :
    (∀ w, a.witness? = some w → a.accepts w = true ∧
      ∃ p ∈ a.starts, ∃ q ∈ a.acceptings, ∃ labels,
        BreadthFirst.TracesBack a.visits q.name labels p.name ∧ labels.filterMap id = w) ∧
    (a.witness? = none ↔ ∀ w, a.accepts w = false) ∧
    (a.isEmpty = true ↔ a.witness? = none) ∧
    ∀ v ∈ a.visits, ∃ p ∈ a.starts, ∀ labels s,
      BreadthFirst.TracesBack a.visits v.node labels s ↔ labels = v.labels ∧ s = p.name := by
  refine ⟨fun w hw => ⟨?_, tracesBack_of_witness? hw⟩, ?_, isEmpty_iff a, fun v hv => ?_⟩
  · exact (accepts_iff_mem_language a w).2 (mem_language_of_witness? hw)
  · rw [witness?_eq_none_iff_language]
    refine forall_congr' fun w => ?_
    rw [← accepts_iff_mem_language, Bool.not_eq_true]
  · obtain ⟨p, hp, hback⟩ := tracesBack_of_mem_visits hv
    refine ⟨p, hp, fun labels s => ⟨fun h => h.unique hback, ?_⟩⟩
    rintro ⟨rfl, rfl⟩
    exact hback

end FiniteState.Automaton
