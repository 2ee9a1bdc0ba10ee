import FiniteState.Command.Execute
import FiniteState.Proofs.Automaton.Subset
import FiniteState.Proofs.Net.Symbols
import FiniteState.Proofs.Table.Quotient

/-!
# From a text to a minimal automaton

A text is read, turned into a nondeterministic automaton, made deterministic and minimised.
Each of these steps keeps the accepted words, and the symbols between existing states are the
literals of the expression, so what comes out decides whether a word matches the expression.
-/

namespace FiniteState

namespace Regex

/-- The literals of an expression that are read. -/
def alphabet (r : Regex) : Alphabet :=
  Alphabet.ofList (r.literals.filter fun c => c ≠ epsilonChar)

theorem mem_alphabet (r : Regex) (c : Char) :
    c ∈ r.alphabet ↔ c ≠ epsilonChar ∧ c ∈ r.literals := by
  rw [alphabet, Alphabet.mem_ofList, List.mem_filter, decide_eq_true_iff, and_comm]

theorem alphabet_subsetTable (r : Regex) (stem : String) :
    (r.toAutomaton stem).subsetTable.alphabet = r.alphabet := by
  have hbounded := (realises_addTo r Net.bounded_empty).bounded
  have hedge : (r.toAutomaton stem).NumberedEdge Label.pieces = r.net.2.Edge :=
    Net.numberedEdge_automaton stem r.net.1 hbounded
  refine Alphabet.ext_mem fun c => ?_
  rw [Automaton.mem_alphabet_subsetTable, Automaton.carries_iff_numberedEdge, hedge,
    mem_alphabet, ← reads_net_iff]
  rfl

section

variable {r : Regex} (h : ∃ c ∈ r.literals, c ≠ epsilonChar) (stem : String)
include h

theorem symbols_subsetTable_ne_nil :
    (r.toAutomaton stem).subsetTable.alphabet.symbols ≠ [] := by
  obtain ⟨c, hc, hcε⟩ := h
  rw [alphabet_subsetTable]
  exact List.ne_nil_of_mem ((mem_alphabet r c).2 ⟨hcε, hc⟩)

theorem verdict_subsetTable_eq_accept_iff (w : List Char) :
    (r.toAutomaton stem).subsetTable.verdict w = .accept ↔ w ∈ r.language := by
  rw [Automaton.verdict_subsetTable_eq_accept_iff (symbols_subsetTable_ne_nil h stem),
    Automaton.accepts_iff_mem_language, language_toAutomaton]

end

/-- Minimising the subset construction of an expression gives an automaton that decides the
words of the expression. -/
theorem exists_minimal (r : Regex) (stem : String) (h : ∃ c ∈ r.literals, c ≠ epsilonChar) :
    ∃ d, (r.toAutomaton stem).determinise.minimise = .ok d ∧
      d.validate none = .ok r.alphabet ∧ ∀ w,
        (d.verdict w = .accept ↔ w ∈ r.language) ∧
        (d.verdict w = .crash ↔ ∃ c ∈ w, ¬ c ∈ r.alphabet) := by
  have halphabet := alphabet_subsetTable r stem
  have ht := Automaton.valid_subsetTable (symbols_subsetTable_ne_nil h stem)
  have htm := ht.minimise
  refine ⟨(r.toAutomaton stem).subsetTable.minimise.toAutomaton, ?_, ?_, fun w => ⟨?_, ?_⟩⟩
  · rw [Automaton.minimise, Automaton.determinise, ht.table?_toAutomaton]
  · rw [← halphabet]
    exact htm.validate_toAutomaton
  · rw [htm.verdict_toAutomaton, Table.verdict_minimise ht.toWellFormed]
    exact verdict_subsetTable_eq_accept_iff h stem w
  · rw [htm.verdict_toAutomaton, Table.verdict_minimise ht.toWellFormed, ← halphabet]
    exact ht.verdictFrom_eq_crash_iff ht.start_lt w

/-- A text with a literal other than `ε` is compiled to an automaton over these literals. It
accepts the words of the expression, rejects the other words over the literals, and crashes on
what is left. -/
theorem compile_correct (source : String) (r : Regex) (hparse : parse source = .ok r)
    (hread : ∃ c ∈ r.literals, c ≠ epsilonChar) :
    ∃ n d, (parse source).map (fun r => r.toAutomaton Command.stem) = .ok n ∧
      n.determinise.minimise = .ok d ∧ d.validate none = .ok r.alphabet ∧ ∀ w,
        (d.verdict w = .accept ↔ w ∈ r.language) ∧
        (d.verdict w = .reject ↔ ¬ w ∈ r.language ∧ ∀ c ∈ w, c ∈ r.alphabet) ∧
        (d.verdict w = .crash ↔ ¬ w ∈ r.language ∧ ¬ ∀ c ∈ w, c ∈ r.alphabet) := by
  obtain ⟨d, hminimise, hvalidate, hverdict⟩ := exists_minimal r Command.stem hread
  refine ⟨r.toAutomaton Command.stem, d, ?_, hminimise, hvalidate, fun w => ?_⟩
  · rw [hparse]
    rfl
  · obtain ⟨haccept, hcrash⟩ := hverdict w
    have hall : (∀ c ∈ w, c ∈ r.alphabet) ↔ ¬ d.verdict w = .crash := by
      rw [hcrash]
      simp
    rw [← haccept, hall]
    cases d.verdict w <;> simp

/-- A choice with a repetition is compiled to an automaton that accepts the empty word. -/
theorem compile_choice : parse "a|b*" = .ok (.alt [.char 'a', .many (.char 'b')]) ∧
    ∃ n d, (parse "a|b*").map (fun r => r.toAutomaton Command.stem) = .ok n ∧
      n.determinise.minimise = .ok d ∧ d.validate none = .ok (Alphabet.ofList ['a', 'b']) ∧
      d.verdict [] = .accept := by
  have hparse : parse "a|b*" = .ok (.alt [.char 'a', .many (.char 'b')]) := by
    decide +kernel
  obtain ⟨n, d, hn, hd, hvalidate, hverdict⟩ := compile_correct "a|b*" _ hparse
    ⟨'a', by decide, by decide⟩
  refine ⟨hparse, n, d, hn, hd, hvalidate, (hverdict []).1.2 ?_⟩
  rw [language, mem_languageOfAny]
  refine ⟨.many (.char 'b'), by simp, ?_⟩
  rw [language]
  exact Language.nil_mem_kstar _

end Regex

end FiniteState
