import FiniteState.Automaton.Path
import FiniteState.Regex.Language
import FiniteState.Regex.Parser

/-!
# Graphs that are labelled with patterns

A label of a graph may be a regular expression. It then lets through all words that match
the expression; a label that lists symbols lets through its symbols, as in any automaton.
-/

namespace FiniteState

/-- The pieces that a label lets through, where an alphabet tells symbols from
expressions. A label that is no expression lets nothing through. -/
def Label.patternPieces (alphabet : Option Alphabet) (l : Label) : Language Char :=
  {v | (l.isPlain alphabet = true ∧ v ∈ l.pieces) ∨
    (l.isPlain alphabet = false ∧ ∃ r, Regex.parse l.source = .ok r ∧ v ∈ r.language)}

theorem Label.mem_patternPieces_of_isPlain (alphabet : Option Alphabet) (l : Label)
    (h : l.isPlain alphabet = true) (v : List Char) :
    v ∈ l.patternPieces alphabet ↔ v ∈ l.pieces := by
  constructor
  · rintro (⟨_, hv⟩ | ⟨hf, _⟩)
    · exact hv
    · exact absurd (h.symm.trans hf) (by decide)
  · exact fun hv => .inl ⟨h, hv⟩

theorem Label.mem_patternPieces_of_parse (alphabet : Option Alphabet) (l : Label)
    (h : l.isPlain alphabet = false) (r : Regex) (hr : Regex.parse l.source = .ok r)
    (v : List Char) : v ∈ l.patternPieces alphabet ↔ v ∈ r.language := by
  constructor
  · rintro (⟨ht, _⟩ | ⟨_, s, hs, hv⟩)
    · exact absurd (ht.symm.trans h) (by decide)
    · rw [hr] at hs
      cases hs
      exact hv
  · exact fun hv => .inr ⟨h, r, hr, hv⟩

/-- The words that a graph with patterns as labels accepts. -/
def Automaton.patternLanguage (a : Automaton) (alphabet : Option Alphabet) :
    Language Char :=
  a.languageOver (Label.patternPieces alphabet)

end FiniteState
