import FiniteState.Proofs.Automaton.Edges
import FiniteState.Regex.Net

/-!
# The edges of a net

An arc of a net stands for all edges between two states, so an arc is never added twice: a
way that is added between two states with an arc goes into that arc. For what can be read
this makes no difference, and `edge_addSilent`, `edge_addSymbol` and `edge_addBlank` say
so: each adds its own edge, or none, to the edges there are. After these three no proof
looks into the list of arcs.
-/

namespace FiniteState

theorem mem_map_singleton (S : Alphabet) (c : Char) :
    String.singleton c ∈ S.symbols.map String.singleton ↔ c ∈ S :=
  List.mem_map_of_injective singleton_injective

/-- What is read of a word that is added as the literal `c`. -/
def literalWord (c : Char) : List Char := if c = epsilonChar then [] else [c]

namespace Arc

theorem epsilonToken_mem_label (arc : Arc) :
    epsilonToken ∈ arc.label.tokens ↔ epsilonChar ∈ arc.symbols ∨ arc.silent = true := by
  rw [label, List.mem_append, ← singleton_epsilonChar, mem_map_singleton]
  by_cases h : arc.silent = true
  · simp [h]
  · simp [h]

theorem singleton_mem_label (arc : Arc) {c : Char} (hc : c ≠ epsilonChar) :
    String.singleton c ∈ arc.label.tokens ↔ c ∈ arc.symbols := by
  have hne := singleton_ne_epsilonToken hc
  rw [label, List.mem_append, mem_map_singleton]
  by_cases h : arc.silent = true
  · simp [h, hne]
  · simp [h]

/-- An arc lets through its literals, and nothing at all if it is silent. -/
theorem mem_pieces (arc : Arc) (v : List Char) :
    v ∈ arc.label.pieces ↔
      (∃ c ∈ arc.symbols, v = literalWord c) ∨ (v = [] ∧ arc.silent = true) := by
  have hpieces : v ∈ arc.label.pieces ↔ (v = [] ∧ epsilonToken ∈ arc.label.tokens) ∨
      ∃ c, v = [c] ∧ c ≠ epsilonChar ∧ String.singleton c ∈ arc.label.tokens := Iff.rfl
  rw [hpieces, epsilonToken_mem_label]
  constructor
  · rintro (⟨rfl, h | h⟩ | ⟨c, rfl, hc, hmem⟩)
    · exact .inl ⟨epsilonChar, h, by simp [literalWord]⟩
    · exact .inr ⟨rfl, h⟩
    · exact .inl ⟨c, (singleton_mem_label arc hc).1 hmem, by simp [literalWord, hc]⟩
  · rintro (⟨c, hmem, rfl⟩ | ⟨rfl, h⟩)
    · by_cases hc : c = epsilonChar
      · subst hc
        exact .inl ⟨by simp [literalWord], .inl hmem⟩
      · exact .inr ⟨c, by simp [literalWord, hc], hc, (singleton_mem_label arc hc).2 hmem⟩
    · exact .inl ⟨rfl, .inr h⟩

end Arc

namespace Net

/-- The edges of a net, one for each piece that an arc lets through. -/
def Edge (n : Net) : Edges Nat := fun i v j =>
  ∃ arc ∈ n.arcs, arc.source = i ∧ arc.target = j ∧ v ∈ arc.label.pieces

/-- Changing an arc so that it lets more through adds edges between its two states. -/
theorem edge_updateArc {s t : Nat} {f : Arc → Arc} {extra : List Char → Prop}
    (hsource : ∀ arc, (f arc).source = arc.source)
    (htarget : ∀ arc, (f arc).target = arc.target)
    (hpieces : ∀ arc v, v ∈ (f arc).label.pieces ↔ v ∈ arc.label.pieces ∨ extra v)
    (size : Nat) (arcs : List Arc) (i : Nat) (v : List Char) (j : Nat) :
    (Net.mk size (updateArc s t f arcs)).Edge i v j ↔
      (Net.mk size arcs).Edge i v j ∨ (i = s ∧ j = t ∧ extra v) := by
  induction arcs with
  | nil =>
      have hnone : ¬ v ∈ (Arc.mk s t .empty false).label.pieces := by
        rw [Arc.mem_pieces]
        simp
      simp only [Edge, updateArc, List.mem_singleton, exists_eq_left, hsource, htarget,
        hpieces, hnone, false_or, List.not_mem_nil, false_and, exists_false]
      constructor
      · rintro ⟨rfl, rfl, h⟩
        exact ⟨rfl, rfl, h⟩
      · rintro ⟨rfl, rfl, h⟩
        exact ⟨rfl, rfl, h⟩
  | cons arc arcs ih =>
      have hcons : ∀ (a : Arc) (as : List Arc), (Net.mk size (a :: as)).Edge i v j ↔
          (a.source = i ∧ a.target = j ∧ v ∈ a.label.pieces) ∨ (Net.mk size as).Edge i v j :=
        fun a as => by simp [Edge]
      rw [updateArc]
      split
      · next h =>
          rw [hcons, hcons, hsource, htarget, hpieces, h.1, h.2]
          constructor
          · intro he
            rcases he with ⟨hi, hj, hv | hv⟩ | he
            · exact .inl (.inl ⟨hi, hj, hv⟩)
            · exact .inr ⟨hi.symm, hj.symm, hv⟩
            · exact .inl (.inr he)
          · intro he
            rcases he with (⟨hi, hj, hv⟩ | he) | ⟨hi, hj, hv⟩
            · exact .inl ⟨hi, hj, .inl hv⟩
            · exact .inr he
            · exact .inl ⟨hi.symm, hj.symm, .inr hv⟩
      · rw [hcons, hcons, ih, or_assoc]

theorem edge_addBlank (n : Net) (s t i : Nat) (v : List Char) (j : Nat) :
    (n.addBlank s t).Edge i v j ↔ n.Edge i v j := by
  have hpieces : ∀ (arc : Arc) (v : List Char),
      v ∈ (id arc).label.pieces ↔ v ∈ arc.label.pieces ∨ False := by
    intro arc v
    rw [id, or_false]
  have h := edge_updateArc (s := s) (t := t) (fun _ => rfl) (fun _ => rfl) hpieces
    n.size n.arcs i v j
  rw [and_false, and_false, or_false] at h
  exact h

theorem edge_addSilent (n : Net) (s t i : Nat) (v : List Char) (j : Nat) :
    (n.addSilent s t).Edge i v j ↔ n.Edge i v j ∨ (i = s ∧ v = [] ∧ j = t) := by
  have hpieces : ∀ (arc : Arc) (v : List Char),
      v ∈ ({ arc with silent := true } : Arc).label.pieces ↔
        v ∈ arc.label.pieces ∨ v = [] := by
    intro arc v
    simp only [Arc.mem_pieces, and_true]
    constructor
    · rintro (h | h)
      · exact .inl (.inl h)
      · exact .inr h
    · rintro ((h | h) | h)
      · exact .inl h
      · exact .inr h.1
      · exact .inr h
  have h := edge_updateArc (s := s) (t := t) (f := fun arc => { arc with silent := true })
    (fun _ => rfl) (fun _ => rfl) hpieces n.size n.arcs i v j
  rw [and_comm (a := v = [])]
  exact h

theorem edge_addSymbol (n : Net) (s : Nat) (c : Char) (t i : Nat) (v : List Char) (j : Nat) :
    (n.addSymbol s c t).Edge i v j ↔
      n.Edge i v j ∨ (i = s ∧ v = literalWord c ∧ j = t) := by
  have hpieces : ∀ (arc : Arc) (v : List Char),
      v ∈ ({ arc with symbols := arc.symbols.insert c } : Arc).label.pieces ↔
        v ∈ arc.label.pieces ∨ v = literalWord c := by
    intro arc v
    simp only [Arc.mem_pieces, Alphabet.mem_insert, or_and_right, exists_or, exists_eq_left]
    rw [or_assoc, or_comm]
  have h := edge_updateArc (s := s) (t := t)
    (f := fun arc => { arc with symbols := arc.symbols.insert c })
    (fun _ => rfl) (fun _ => rfl) hpieces n.size n.arcs i v j
  rw [and_comm (a := v = literalWord c)]
  exact h

/-- A state that no arc leads to is not entered. -/
theorem not_edge_of_hasIncoming {n : Net} {j : Nat} (h : n.hasIncoming j = false)
    (i : Nat) (v : List Char) : ¬ n.Edge i v j := by
  rintro ⟨arc, harc, -, htarget, -⟩
  have hany : n.hasIncoming j = true :=
    List.any_eq_true.2 ⟨arc, harc, by simpa using htarget⟩
  rw [h] at hany
  cases hany

/-- A state that no arc leaves is not left. -/
theorem not_edge_of_hasOutgoing {n : Net} {i : Nat} (h : n.hasOutgoing i = false)
    (v : List Char) (j : Nat) : ¬ n.Edge i v j := by
  rintro ⟨arc, harc, hsource, -, -⟩
  have hany : n.hasOutgoing i = true :=
    List.any_eq_true.2 ⟨arc, harc, by simpa using hsource⟩
  rw [h] at hany
  cases hany

end Net

end FiniteState
