import FiniteState.Proofs.Net.Automaton

/-!
# What a net reads

The symbols that some edge of a net reads are the literals of its expression other than `ε`.
Only a literal adds a symbol. What is added around fragments is silent, so no symbol comes
in or is lost on the way up the tree.
-/

namespace FiniteState

namespace Net

/-- Some edge reads the symbol. -/
def Reads (n : Net) (c : Char) : Prop := ∃ i j, n.Edge i [c] j

section

variable (n : Net) (c : Char)

theorem not_reads_empty : ¬ Net.empty.Reads c := by
  intro h
  obtain ⟨i, j, arc, harc, -⟩ := h
  cases harc

theorem reads_addSilent (s t : Nat) : (n.addSilent s t).Reads c ↔ n.Reads c := by
  have hne : [c] ≠ [] := List.cons_ne_nil c []
  simp only [Reads, edge_addSilent, hne, false_and, and_false, or_false]

theorem reads_addEmpty : n.addEmpty.2.Reads c ↔ n.Reads c := by
  have hedge := edge_addBlank n.addFragment.2 n.size (n.size + 1)
  simp only [Reads, addEmpty, hedge]
  exact Iff.rfl

theorem singleton_eq_literalWord_iff (d : Char) :
    [c] = literalWord d ↔ c ≠ epsilonChar ∧ c = d := by
  rw [literalWord]
  by_cases hd : d = epsilonChar
  · subst hd
    simp
  · simp only [hd, if_false, List.cons.injEq, and_true]
    constructor
    · exact fun hcd => ⟨hcd ▸ hd, hcd⟩
    · exact fun h => h.2

theorem reads_addChar (d : Char) :
    (n.addChar d).2.Reads c ↔ n.Reads c ∨ (c ≠ epsilonChar ∧ c = d) := by
  have hedge := edge_addSymbol n.addFragment.2 n.size d (n.size + 1)
  simp only [Reads, addChar, hedge, singleton_eq_literalWord_iff]
  constructor
  · intro h
    obtain ⟨i, j, he | ⟨-, hc, -⟩⟩ := h
    · exact .inl ⟨i, j, he⟩
    · exact .inr hc
  · intro h
    rcases h with ⟨i, j, he⟩ | hc
    · exact ⟨i, j, .inl he⟩
    · exact ⟨n.size, n.size + 1, .inr ⟨rfl, hc, rfl⟩⟩

theorem reads_enclose (o f : Fragment) : (n.enclose o f).Reads c ↔ n.Reads c := by
  rw [enclose, reads_addSilent, reads_addSilent]

theorem reads_chain (fs : List Fragment) : (n.chain fs).Reads c ↔ n.Reads c := by
  have hne : [c] ≠ [] := List.cons_ne_nil c []
  simp only [Reads, edge_chain, hne, false_and, or_false]

theorem reads_sequence (fs : List Fragment) : (n.sequence fs).2.Reads c ↔ n.Reads c := by
  cases fs with
  | nil => exact reads_addEmpty n c
  | cons f fs => exact reads_chain n c (f :: fs)

theorem reads_loopOrSkip (f : Fragment) : (n.loopOrSkip f).2.Reads c ↔ n.Reads c := by
  rw [loopOrSkip, reads_addSilent, reads_addSilent]

theorem reads_star (f : Fragment) : (n.star f).2.Reads c ↔ n.Reads c := by
  rw [star]
  split
  · rw [reads_loopOrSkip, isolate, reads_enclose]
    exact Iff.rfl
  · exact reads_loopOrSkip n c f

theorem reads_plus (f : Fragment) : (n.plus f).2.Reads c ↔ n.Reads c :=
  reads_addSilent n c f.accept f.start

end

end Net

namespace Regex

open Net

mutual

theorem reads_addTo (c : Char) : ∀ (r : Regex) (n : Net),
    (addTo n r).2.Reads c ↔ n.Reads c ∨ (c ≠ epsilonChar ∧ c ∈ r.literals)
  | .empty, n => by
      rw [addTo, reads_addEmpty, literals]
      simp
  | .char d, n => by
      rw [addTo, reads_addChar, literals, List.mem_singleton]
  | .concat parts, n => by
      rw [addTo, reads_sequence, reads_addParts c parts n, literals]
  | .alt parts, n => by
      rw [addTo, reads_addChoices c parts, literals]
      exact Iff.rfl
  | .many body, n => by
      rw [addTo, reads_star, reads_addTo c body n, literals]
  | .many1 body, n => by
      rw [addTo, reads_plus, reads_addTo c body n, literals]

theorem reads_addParts (c : Char) : ∀ (rs : List Regex) (n : Net),
    (addParts n rs).2.Reads c ↔ n.Reads c ∨ (c ≠ epsilonChar ∧ c ∈ literalsAll rs)
  | [], n => by
      rw [addParts, literalsAll]
      simp
  | r :: rs, n => by
      rw [addParts, reads_addParts c rs, reads_addTo c r n, literalsAll, List.mem_append,
        and_or_left, or_assoc]

theorem reads_addChoices (c : Char) : ∀ (rs : List Regex) (n : Net) (o : Fragment),
    (addChoices n o rs).Reads c ↔ n.Reads c ∨ (c ≠ epsilonChar ∧ c ∈ literalsAll rs)
  | [], n, o => by
      rw [addChoices, literalsAll]
      simp
  | r :: rs, n, o => by
      rw [addChoices, reads_addChoices c rs, reads_enclose, reads_addTo c r n, literalsAll,
        List.mem_append, and_or_left, or_assoc]

end

/-- The symbols that are read are the literals other than `ε`. -/
theorem reads_net_iff (r : Regex) (c : Char) :
    r.net.2.Reads c ↔ c ≠ epsilonChar ∧ c ∈ r.literals := by
  rw [net, reads_addTo]
  simp [not_reads_empty]

end Regex

end FiniteState
