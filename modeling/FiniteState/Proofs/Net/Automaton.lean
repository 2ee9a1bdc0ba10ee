import FiniteState.Proofs.Automaton.Simulation
import FiniteState.Proofs.Net.Language

/-!
# The automaton of an expression

The states of a net get names, a stem with a number, and its arcs become transitions. Names
with different numbers are different, whatever the stem is, so the automaton has the edges
of the net and its language is that of the expression.
-/

namespace FiniteState

namespace Net

theorem stateName_injective (stem : String) : Function.Injective (stateName stem) := by
  intro i j h
  have hdigits := congrArg String.toList h
  rw [stateName, stateName, String.toList_append, String.toList_append] at hdigits
  have hsame : (toString i).toList = (toString j).toList := List.append_cancel_left hdigits
  have hnumber := congrArg (fun cs => Nat.ofDigitChars 10 cs 0) hsame
  simpa [Nat.toString_eq_ofList_toDigits] using hnumber

section

variable (n : Net) (stem : String) (f : Fragment)

theorem stateNames_states :
    stateNames (n.states stem f) = (List.range n.size).map (stateName stem) := by
  rw [stateNames, states, List.map_map]
  rfl

theorem nodup_stateNames_states : (stateNames (n.states stem f)).Nodup := by
  rw [stateNames_states]
  exact List.nodup_range.map (stateName_injective stem)

theorem states_automaton :
    (Automaton.ofLists (n.states stem f) (n.transitions stem)).states = n.states stem f :=
  Automaton.states_ofLists _ _ (nodup_stateNames_states n stem f)

theorem getElem?_states (i : Nat) (s : State) :
    (n.states stem f)[i]? = some s ↔
      i < n.size ∧ s = ⟨stateName stem i, i == f.start, i == f.accept, none⟩ := by
  rw [states, List.getElem?_map]
  by_cases hi : i < n.size
  · simp [hi, eq_comm]
  · simp [hi]

theorem getElem?_names_automaton (i : Nat) (p : String) :
    (Automaton.ofLists (n.states stem f) (n.transitions stem)).names[i]? = some p ↔
      i < n.size ∧ p = stateName stem i := by
  rw [Automaton.getElem?_names_eq_some_iff, states_automaton]
  simp only [getElem?_states]
  constructor
  · rintro ⟨s, ⟨hi, rfl⟩, rfl⟩
    exact ⟨hi, rfl⟩
  · rintro ⟨hi, rfl⟩
    exact ⟨_, ⟨hi, rfl⟩, rfl⟩

variable {n}

/-- Naming the states changes no edge. -/
theorem numberedEdge_automaton (hn : n.Bounded) :
    (Automaton.ofLists (n.states stem f) (n.transitions stem)).NumberedEdge Label.pieces =
      n.Edge := by
  have hname := getElem?_names_automaton n stem f
  funext i v j
  refine propext ⟨?_, ?_⟩
  · rintro ⟨p, q, hp, hq, -, -, t, ht, hsource, htarget, hv⟩
    obtain ⟨arc, harc, rfl⟩ := List.mem_map.1 ht
    obtain ⟨-, rfl⟩ := (hname i p).1 hp
    obtain ⟨-, rfl⟩ := (hname j q).1 hq
    exact ⟨arc, harc, stateName_injective stem hsource, stateName_injective stem htarget, hv⟩
  · intro he
    have hlt := hn i v j he
    have hp := (hname i _).2 ⟨hlt.1, rfl⟩
    have hq := (hname j _).2 ⟨hlt.2, rfl⟩
    obtain ⟨arc, harc, rfl, rfl, hv⟩ := he
    exact ⟨_, _, hp, hq, List.mem_of_getElem? hp, List.mem_of_getElem? hq, _,
      List.mem_map_of_mem harc, rfl, rfl, hv⟩

/-- The language of a net is what leads through its fragment. -/
theorem language_automaton (hn : n.Bounded) (hstart : f.start < n.size)
    (haccept : f.accept < n.size) :
    (Automaton.ofLists (n.states stem f) (n.transitions stem)).language =
      between n.Edge f.start f.accept := by
  ext w
  rw [Automaton.language, Automaton.mem_languageOver_iff_numbered, states_automaton,
    numberedEdge_automaton stem f hn]
  simp only [getElem?_states]
  constructor
  · rintro ⟨i, s, ⟨-, rfl⟩, hs, j, u, ⟨-, rfl⟩, hu, hw⟩
    have hi : i = f.start := by simpa using hs
    have hj : j = f.accept := by simpa using hu
    exact hj ▸ hi ▸ hw
  · intro hw
    exact ⟨f.start, _, ⟨hstart, rfl⟩, by simp, f.accept, _, ⟨haccept, rfl⟩, by simp, hw⟩

end

end Net

namespace Regex

open Net

theorem language_toAutomaton (r : Regex) (stem : String) :
    (r.toAutomaton stem).language = r.language := by
  have h := realises_addTo r bounded_empty
  have hlanguage := language_automaton stem r.net.1 h.bounded h.start_lt h.accept_lt
  exact hlanguage.trans h.between_eq

/-- The automaton of an expression accepts the words that match the expression. -/
theorem toAutomaton_accepts_iff (r : Regex) (stem : String) (w : List Char) :
    (r.toAutomaton stem).accepts w = true ↔ w ∈ r.language := by
  rw [Automaton.accepts_iff_mem_language, language_toAutomaton]

end Regex

end FiniteState
