import FiniteState.Proofs.Automaton.Renaming
import FiniteState.Proofs.Command.Outcome
import FiniteState.Proofs.Net.Reachable
import FiniteState.Proofs.Regex.Grammar

/-!
# The alphabets of an expression

The alphabet of a text can be found in four ways: from the tree of the expression, from the states
of its automaton that are reachable, from the transitions between existing states, and by checking
the deterministic automaton. All four give the literals that are read, so the two documents that can
be printed for the text list the same alphabet. Nothing is missing from the reachable states, since
all states of the net of an expression that has been read are reachable.
-/

namespace FiniteState

namespace Regex

variable {r : Regex}

theorem proper_of_parse_eq_ok {source : String} (h : parse source = .ok r) :
    r = .empty ∨ Proper 1 r := by
  by_cases hne : source.toList = []
  · rw [parse, hne] at h
    exact .inl (Except.ok.inj h).symm
  · obtain ⟨t, ht, rfl⟩ := (parseChars_eq_ok_iff hne r).1 h
    exact .inr ((proper_collapse ht.proper).mono (by decide))

/-- The entry of the net is the start state. -/
theorem start_mem_starts (r : Regex) (stem : String) :
    Net.stateName stem r.net.1.start ∈ stateNames (r.toAutomaton stem).starts := by
  have hlt : r.net.1.start < r.net.2.size := (realises_addTo r Net.bounded_empty).start_lt
  have hget := (Net.getElem?_states r.net.2 stem r.net.1 r.net.1.start _).2 ⟨hlt, rfl⟩
  have hmem := List.mem_of_getElem? hget
  rw [← Net.states_automaton] at hmem
  exact List.mem_map.2 ⟨_, List.mem_filter.2 ⟨hmem, beq_self_eq_true r.net.1.start⟩, rfl⟩

/-- All states of the automaton of an expression are reachable. -/
theorem mem_reachable_toAutomaton (hr : Proper 1 r) (stem : String) {p : String}
    (hp : p ∈ (r.toAutomaton stem).names) : p ∈ (r.toAutomaton stem).reachable := by
  have hbounded : r.net.2.Bounded := (realises_addTo r Net.bounded_empty).bounded
  have hnames := Net.getElem?_names_automaton r.net.2 stem r.net.1
  obtain ⟨s, hs⟩ := List.getElem?_of_mem
    (Automaton.mem_names_of_mem_starts (r.start_mem_starts stem))
  obtain ⟨i, hi⟩ := List.getElem?_of_mem hp
  obtain rfl := Net.stateName_injective stem ((hnames s _).1 hs).2
  obtain ⟨w, hw⟩ := spans_net hr i (Nat.zero_le i) ((hnames i p).1 hi).1
  rw [← Net.numberedEdge_automaton stem r.net.1 hbounded] at hw
  have hpath := (Automaton.leads_numbered_iff hs hi w).1 hw
  exact (Automaton.mem_reachable_iff _ p).2 ⟨_, r.start_mem_starts stem, w, hpath.any⟩

/-- The symbols that leave reachable states are the literals that are read. -/
theorem alphabet_toAutomaton (hr : r = .empty ∨ Proper 1 r) (stem : String) :
    (r.toAutomaton stem).alphabet = r.alphabet := by
  refine Alphabet.ext_mem fun c => ?_
  rw [Automaton.mem_alphabet_iff, mem_alphabet]
  constructor
  · rintro ⟨t, ht, -, hc⟩
    obtain ⟨arc, harc, rfl⟩ := List.mem_map.1 ht
    obtain ⟨hε, htoken⟩ := (Label.mem_symbols_iff _ c).1 hc
    exact (reads_net_iff r c).1 ⟨_, _, arc, harc, rfl, rfl, .inr ⟨c, rfl, hε, htoken⟩⟩
  · rintro ⟨hε, hc⟩
    obtain ⟨t, ht, hsource, -, -, htoken⟩ := (r.carries_toAutomaton_iff stem c).2 ⟨hc, hε⟩
    rcases hr with rfl | hr
    · cases hc
    · exact ⟨t, ht, mem_reachable_toAutomaton hr stem hsource,
        (Label.mem_symbols_iff _ c).2 ⟨hε, htoken⟩⟩

theorem validate_determinise_toAutomaton (h : ∃ c ∈ r.literals, c ≠ epsilonChar)
    (stem : String) : (r.toAutomaton stem).determinise.validate none = .ok r.alphabet := by
  rw [← alphabet_subsetTable r stem]
  exact (Automaton.valid_subsetTable (symbols_subsetTable_ne_nil h stem)).validate_toAutomaton

theorem exists_literal_of_alphabet_ne_empty (h : r.alphabet ≠ .empty) :
    ∃ c ∈ r.literals, c ≠ epsilonChar := by
  by_contra hnone
  refine h (Alphabet.ext_mem fun c => ?_)
  rw [mem_alphabet]
  exact iff_of_false (fun hc => hnone ⟨c, hc.2, hc.1⟩) (Alphabet.not_mem_empty c)

end Regex

namespace Command

variable {options : Options} {source : String} {r : Regex}

/-- A command writes the text of a document, and this document is read from the text. -/
def PrintsDocument (options : Options) (command : Command Automaton) (document : Document) : Prop :=
  execute options command = .ok (document.render options.pretty) ∧
    Document.parse (document.render options.pretty) = .ok document

theorem printsDocument_nfa (h : readRegex source options = .ok r) :
    PrintsDocument options (.nfa source) (r.toAutomaton stem).nondeterministicDocument := by
  refine ⟨?_, Document.parse_render (r.faithfulStates_toAutomaton stem) options.pretty⟩
  rw [execute, result, h]
  rfl

theorem printsDocument_regex (h : readRegex source options = .ok r) {d : Automaton}
    (hd : finish (r.toAutomaton stem) options = .ok d) :
    PrintsDocument options (.regex source) d.deterministicDocument := by
  obtain ⟨t, rfl⟩ := exists_table_of_finish hd
  exact ⟨execute_regex_eq_ok h hd, Document.parse_render t.faithfulStates_toAutomaton options.pretty⟩

/-- The deterministic automaton of an expression with something to read, minimised or not, is over
the literals that are read. -/
theorem exists_finish_toAutomaton (h : ∃ c ∈ r.literals, c ≠ epsilonChar) (options : Options) :
    ∃ d, finish (r.toAutomaton stem) options = .ok d ∧ d.validate none = .ok r.alphabet := by
  obtain ⟨c, hc⟩ := h
  have hcarries := (r.carries_toAutomaton_iff stem c).2 hc
  obtain ⟨d, hd⟩ := (exists_finish_iff (r.toAutomaton stem)).2 fun _ => ⟨c, hcarries⟩
  have hcomplete := (finish_of_literal ⟨c, hc⟩ hd).1
  exact ⟨d, hd, (Automaton.validate_none_eq_ok_iff d _).2 hcomplete⟩

/-- The symbols that leave the reachable states of a valid automaton are the alphabet over which it
is valid. For the automaton of an expression they are the literals of the expression other than
`ε`. If there is such a literal, the subset construction is valid over these. Both documents that
can be printed for the expression list them then: the one of its automaton, and the one of the
subset construction of this automaton, minimised or not. -/
theorem alphabets_agree :
    (∀ (a : Automaton) (S : Alphabet), a.validate none = .ok S → a.alphabet = S) ∧
      ∀ (source : String) (r : Regex), Regex.parse source = .ok r →
        ∃ S : Alphabet, (∀ c, c ∈ S ↔ c ∈ r.symbols ∧ c ≠ epsilonChar) ∧
          (∀ stem, (r.toAutomaton stem).alphabet = S) ∧
          (S ≠ .empty →
            (∀ stem, (r.toAutomaton stem).determinise.validate none = .ok S) ∧
            ∀ options : Options, (∀ c, ¬ IsForeign options.alphabet r c) →
              PrintsDocument options (.nfa source)
                (r.toAutomaton stem).nondeterministicDocument ∧
              (r.toAutomaton stem).nondeterministicDocument.alphabet =
                some (S.symbols.map String.singleton) ∧
              ∃ d : Automaton, finish (r.toAutomaton stem) options = .ok d ∧
                PrintsDocument options (.regex source) d.deterministicDocument ∧
                d.deterministicDocument.alphabet = some (S.symbols.map String.singleton)) := by
  refine ⟨fun a S h => ((Automaton.validate_none_eq_ok_iff a S).1 h).alphabet_eq, ?_⟩
  intro source r hparse
  have halphabet := Regex.alphabet_toAutomaton (Regex.proper_of_parse_eq_ok hparse)
  refine ⟨r.alphabet, fun c => ?_, halphabet, fun hne => ?_⟩
  · rw [r.mem_alphabet, r.mem_symbols, and_comm]
  · have hread := Regex.exists_literal_of_alphabet_ne_empty hne
    refine ⟨Regex.validate_determinise_toAutomaton hread, fun options hforeign => ?_⟩
    have hok := (readRegex_eq_ok_iff source r).2 ⟨hparse, hforeign⟩
    obtain ⟨d, hd, hvalidate⟩ := exists_finish_toAutomaton hread options
    refine ⟨printsDocument_nfa hok, ?_, d, hd, printsDocument_regex hok hd, ?_⟩
    · rw [Automaton.nondeterministicDocument, Automaton.document, halphabet]
      rfl
    · rw [Automaton.deterministicDocument, Automaton.document, hvalidate]
      rfl

/-- A state that no word leads to makes no difference, and neither does a literal that is not
read. -/
theorem alphabets_agree_unread :
    Automaton.spareAccepting.alphabet = .ofList ['a'] ∧
      (∃ text document, execute .default (.nfa "(a|ε)b*") = .ok text ∧
        Document.parse text = .ok document ∧ document.alphabet = some ["a", "b"]) ∧
      ∃ text document, execute .default (.regex "(a|ε)b*") = .ok text ∧
        Document.parse text = .ok document ∧ document.alphabet = some ["a", "b"] := by
  have hparse : Regex.parse "(a|ε)b*" =
      .ok (.concat [.alt [.char 'a', .char 'ε'], .many (.char 'b')]) := by
    decide +kernel
  obtain ⟨hvalid, hregex⟩ := alphabets_agree
  refine ⟨hvalid _ _ (by decide +kernel), ?_⟩
  obtain ⟨S, -, hreached, hdocuments⟩ := hregex _ _ hparse
  obtain rfl : S = .ofList ['a', 'b'] := (hreached stem).symm.trans (by decide +kernel)
  obtain ⟨⟨hnfa, hnfaRead⟩, hnfaAlphabet, d, -, ⟨hdfa, hdfaRead⟩, hdfaAlphabet⟩ :=
    (hdocuments (by decide)).2 .default fun c ⟨S, hS, _⟩ => Option.some_ne_none S hS.symm
  exact ⟨⟨_, _, hnfa, hnfaRead, hnfaAlphabet⟩, _, _, hdfa, hdfaRead, hdfaAlphabet⟩

end Command

end FiniteState
