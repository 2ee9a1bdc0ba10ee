import FiniteState.Command.Execute
import FiniteState.Proofs.Automaton.Compare
import FiniteState.Proofs.Document
import FiniteState.Proofs.Regex.Compile

/-!
# Documents that commands print

Six commands compute an automaton and print its document. Reading the document gives an
automaton with the same words, as long as no token holds what separates tokens: a comma, or a
blank at one of its ends. In particular the document of an expression can be run to match words,
unless the expression has no literals to read. Then there is no transition in the document, and
an automaton without transitions is refused.
-/

namespace FiniteState

section

variable {ε ε' α β : Type} {x : Except ε α}

theorem exists_of_map_eq_ok {f : α → β} {b : β} (h : x.map f = .ok b) :
    ∃ a, x = .ok a ∧ f a = b := by
  cases x with
  | error e => cases h
  | ok a => exact ⟨a, rfl, Except.ok.inj h⟩

theorem eq_ok_of_mapError_eq_ok {f : ε → ε'} {a : α} (h : x.mapError f = .ok a) :
    x = .ok a := by
  cases x with
  | error e => cases h
  | ok b => exact congrArg Except.ok (Except.ok.inj h)

end

/-! ## Results without positions -/

theorem Table.faithfulStates_toAutomaton (t : Table) : FaithfulStates t.toAutomaton.states := by
  have hnamed : ∀ (rows : List Row) (i : Nat), ∀ s ∈ namedStates t.start i rows,
      s.position = none := by
    intro rows
    induction rows with
    | nil => simp [namedStates]
    | cons row rows ih =>
        intro i s hs
        rw [namedStates, List.mem_cons] at hs
        rcases hs with rfl | hs
        · rfl
        · exact ih (i + 1) s hs
  exact Automaton.faithfulStates_ofLists (hnamed t.rows 0) _

theorem Regex.faithfulStates_toAutomaton (r : Regex) (stem : String) :
    FaithfulStates (r.toAutomaton stem).states := by
  refine Automaton.faithfulStates_ofLists (fun s hs => ?_) _
  obtain ⟨i, -, rfl⟩ := List.mem_map.1 hs
  rfl

namespace Automaton

theorem exists_table_of_minimise {a m : Automaton} (h : a.minimise = .ok m) :
    ∃ t : Table, m = t.toAutomaton := by
  rw [minimise] at h
  cases ht : a.table? with
  | error d => rw [ht] at h; cases h
  | ok t =>
      rw [ht] at h
      exact ⟨_, (Except.ok.inj h).symm⟩

theorem exists_table_of_combine {a b m : Automaton} {accept : Bool → Bool → Bool}
    (h : a.combine b accept = .ok m) : ∃ t : Table, m = t.toAutomaton := by
  rw [combine] at h
  cases hl : a.table? with
  | error d => rw [hl] at h; cases h
  | ok l =>
      cases hr : b.table? with
      | error d => rw [hl, hr] at h; cases h
      | ok r =>
          rw [hl, hr] at h
          exact ⟨_, (Except.ok.inj h).symm⟩

variable {a : Automaton} {S : Alphabet}

/-- What an automaton reads is what may stand in its labels. -/
theorem IsComplete.clean (h : a.IsComplete S)
    (hS : ∀ c ∈ S, c ≠ ',' ∧ Text.isBlank c = false) : ∀ t ∈ a.transitions, t.label.Clean := by
  intro t ht
  refine ⟨h.tokens_ne_nil t ht, fun token htoken => ?_⟩
  obtain ⟨c, -, rfl⟩ := h.isSymbolToken t ht token htoken
  have hc := (h.mem_leavingTokens_iff (h.ends t ht).1 c).1
    (IsComplete.mem_leavingTokens ht htoken)
  exact Label.isClean_singleton (hS c hc).1 (hS c hc).2

/-- The other way round, no automaton that is read from a document reads a comma or a blank. -/
theorem not_separator_of_accept (d : Document) {w : List Char}
    (hw : d.toAutomaton.verdict w = .accept) :
    ∀ c ∈ w, c ≠ ',' ∧ Text.isBlank c = false := by
  intro c hc
  cases hvalidate : d.toAutomaton.validate none with
  | error defect =>
      rw [verdict, table?_eq_error hvalidate] at hw
      cases hw
  | ok S =>
      have hcomplete := (validate_none_eq_ok_iff _ S).1 hvalidate
      have hmem := hcomplete.mem_of_accept hw c hc
      obtain ⟨s, hs, -⟩ := hcomplete.states_ne_nil
      have htoken := (hcomplete.mem_leavingTokens_iff (List.mem_map_of_mem hs) c).2 hmem
      obtain ⟨t, ht, htoken⟩ := List.mem_flatMap.1 htoken
      exact (d.clean_toAutomaton t ((mem_outgoing _ _ t).1 ht).1).not_separator htoken

theorem not_separator_of_accepts (d : Document) {w : List Char}
    (hw : d.toAutomaton.accepts w = true) : ∀ c ∈ w, c ≠ ',' ∧ Text.isBlank c = false := by
  intro c hc
  obtain ⟨t, ht, -, -, -, htoken⟩ := carries_of_accepts hw c hc
  exact (d.clean_toAutomaton t ht).not_separator htoken

end Automaton

namespace Command

variable {options : Options}

/-- The commands that print the document of an automaton. -/
def PrintsAutomaton {α : Type} : Command α → Prop
  | .regex _ | .nfa _ | .determinise _ | .minimise _ | .invert _ | .combine _ _ _ => True
  | _ => False

/-- The automaton that is printed. -/
def Result.automaton? : Result → Option Automaton
  | .deterministic a => some a
  | .nondeterministic a => some a
  | .text _ => none

/-! ## What is printed -/

theorem exists_table_of_finish {n a : Automaton} (h : finish n options = .ok a) :
    ∃ t : Table, a = t.toAutomaton := by
  rw [finish] at h
  split at h
  · exact Automaton.exists_table_of_minimise (eq_ok_of_mapError_eq_ok h)
  · exact ⟨n.subsetTable, (Except.ok.inj h).symm⟩

/-- What a command prints an automaton for is a table, an expression, or an automaton whose
acceptance is inverted. -/
theorem exists_automaton {command : Command Automaton} (hprints : command.PrintsAutomaton)
    {r : Result} (h : result options command = .ok r) :
    ∃ a, r.automaton? = some a ∧
      ((∃ t : Table, a = t.toAutomaton) ∨ (∃ (e : Regex) (stem : String), a = e.toAutomaton stem) ∨
        ∃ file : Automaton, command = .invert file ∧ a = file.invert) := by
  cases command with
  | regex source =>
      rw [result] at h
      cases hread : readRegex source options with
      | error f => rw [hread] at h; cases h
      | ok e =>
          rw [hread] at h
          obtain ⟨a, ha, rfl⟩ := exists_of_map_eq_ok h
          exact ⟨a, rfl, .inl (exists_table_of_finish ha)⟩
  | nfa source =>
      obtain ⟨e, -, rfl⟩ := exists_of_map_eq_ok h
      exact ⟨_, rfl, .inr (.inl ⟨e, stem, rfl⟩)⟩
  | determinise file =>
      rw [result] at h
      cases hsplice : file.splice options.alphabet with
      | error f => rw [hsplice] at h; cases h
      | ok n =>
          rw [hsplice] at h
          obtain ⟨a, ha, rfl⟩ := exists_of_map_eq_ok h
          exact ⟨a, rfl, .inl (exists_table_of_finish ha)⟩
  | minimise file =>
      obtain ⟨a, ha, rfl⟩ := exists_of_map_eq_ok h
      exact ⟨a, rfl, .inl (Automaton.exists_table_of_minimise (eq_ok_of_mapError_eq_ok ha))⟩
  | invert file =>
      obtain rfl := Except.ok.inj h
      exact ⟨_, rfl, .inr (.inr ⟨file, rfl, rfl⟩)⟩
  | combine op left right =>
      obtain ⟨a, ha, rfl⟩ := exists_of_map_eq_ok h
      exact ⟨a, rfl, .inl (Automaton.exists_table_of_combine (eq_ok_of_mapError_eq_ok ha))⟩
  | _ => exact hprints.elim

theorem faithfulStates_invert {a : Automaton} (h : FaithfulStates a.states) :
    FaithfulStates a.invert.states := by
  intro s hs
  obtain ⟨u, hu, rfl⟩ := List.mem_map.1 hs
  exact h u hu

/-- A printed automaton is read with its labels read again. Only the positions of an automaton
that is inverted are printed. -/
theorem parseAutomaton_of_execute {command : Command Automaton} {text : String}
    (hprints : command.PrintsAutomaton) (h : execute options command = .ok text)
    (hpositions : ∀ file, command = .invert file → FaithfulStates file.states) :
    ∃ r a, result options command = .ok r ∧ r.automaton? = some a ∧
      Document.parseAutomaton text = .ok a.reread := by
  obtain ⟨r, hresult, rfl⟩ := exists_of_map_eq_ok h
  obtain ⟨a, ha, hcases⟩ := exists_automaton hprints hresult
  have hfaithful : FaithfulStates a.states := by
    rcases hcases with ⟨t, rfl⟩ | ⟨e, stem, rfl⟩ | ⟨file, hfile, rfl⟩
    · exact t.faithfulStates_toAutomaton
    · exact e.faithfulStates_toAutomaton stem
    · exact faithfulStates_invert (hpositions file hfile)
  refine ⟨r, a, hresult, ha, ?_⟩
  cases r with
  | deterministic b =>
      obtain rfl := Option.some.inj ha
      exact Automaton.parseAutomaton_render hfaithful _ _
  | nondeterministic b =>
      obtain rfl := Option.some.inj ha
      exact Automaton.parseAutomaton_render hfaithful _ _
  | text lines => cases ha

/-! ## Expressions -/

theorem exists_finish_of_execute {source text : String} {e : Regex}
    (hparse : Regex.parse source = .ok e) (h : execute options (.regex source) = .ok text) :
    ∃ a, finish (e.toAutomaton stem) options = .ok a ∧
      Document.parseAutomaton text = .ok a.reread := by
  have hprints : PrintsAutomaton (.regex source : Command Automaton) := trivial
  obtain ⟨r, a, hresult, ha, hread⟩ := parseAutomaton_of_execute hprints h (by simp)
  refine ⟨a, ?_, hread⟩
  rw [result, readRegex, hparse] at hresult
  cases hforeign : foreignSymbol? e options.alphabet with
  | some c => simp only [hforeign] at hresult; cases hresult
  | none =>
      simp only [hforeign] at hresult
      obtain ⟨b, hb, rfl⟩ := exists_of_map_eq_ok hresult
      rw [hb, Option.some.inj ha]

/-- With a literal to read, what is printed decides the words of the expression. -/
theorem finish_of_literal {e : Regex} (h : ∃ c ∈ e.literals, c ≠ epsilonChar) {a : Automaton}
    (hfinish : finish (e.toAutomaton stem) options = .ok a) :
    a.IsComplete e.alphabet ∧ ∀ w, a.verdict w = .accept ↔ w ∈ e.language := by
  rw [finish] at hfinish
  split at hfinish
  · obtain ⟨d, hd, hvalidate, hverdict⟩ := e.exists_minimal stem h
    rw [hd] at hfinish
    obtain rfl := Except.ok.inj hfinish
    exact ⟨(Automaton.validate_none_eq_ok_iff _ _).1 hvalidate, fun w => (hverdict w).1⟩
  · obtain rfl := Except.ok.inj hfinish
    have ht := Automaton.valid_subsetTable (Regex.symbols_subsetTable_ne_nil h stem)
    refine ⟨e.alphabet_subsetTable stem ▸ ht.isComplete_toAutomaton, fun w => ?_⟩
    rw [Automaton.determinise, ht.verdict_toAutomaton]
    exact Regex.verdict_subsetTable_eq_accept_iff h stem w

/-- Without a literal to read, there is a state without transitions, which is printed only if
it need not be minimised. -/
theorem finish_of_no_literal {e : Regex} (h : ∀ c ∈ e.literals, c = epsilonChar) {a : Automaton}
    (hfinish : finish (e.toAutomaton stem) options = .ok a) :
    options.minimise = false ∧ a.transitions = [] ∧ ∀ w, a.verdict w = .crash := by
  have hempty : (e.toAutomaton stem).subsetTable.alphabet.symbols = [] := by
    rw [e.alphabet_subsetTable, List.eq_nil_iff_forall_not_mem]
    intro c hc
    obtain ⟨hcε, hc⟩ := (e.mem_alphabet c).1 hc
    exact hcε (h c hc)
  obtain ⟨s, hs, hsingle⟩ := Automaton.determinise_eq hempty
  have htable := Automaton.table?_eq_error (Automaton.validate_single s hs)
  rw [finish, hsingle] at hfinish
  cases hm : options.minimise with
  | true =>
      rw [hm, if_pos rfl, Automaton.minimise, htable] at hfinish
      cases hfinish
  | false =>
      rw [hm, if_neg Bool.false_ne_true] at hfinish
      obtain rfl := Except.ok.inj hfinish
      refine ⟨rfl, rfl, fun w => ?_⟩
      rw [Automaton.verdict, htable]

/-- The automaton of an expression is read as it was printed, if no literal separates tokens. -/
theorem reread_of_finish {e : Regex}
    (hliterals : ∀ c ∈ e.literals, c ≠ ',' ∧ Text.isBlank c = false) {a : Automaton}
    (hfinish : finish (e.toAutomaton stem) options = .ok a) : a.reread = a := by
  rw [Automaton.reread_eq_iff]
  by_cases h : ∃ c ∈ e.literals, c ≠ epsilonChar
  · exact (finish_of_literal h hfinish).1.clean fun c hc =>
      hliterals c ((e.mem_alphabet c).1 hc).2
  · push Not at h
    rw [(finish_of_no_literal h hfinish).2.1]
    simp

theorem execute_regex_eq_ok {source : String} {e : Regex}
    (hread : readRegex source options = .ok e) {a : Automaton}
    (hfinish : finish (e.toAutomaton stem) options = .ok a) :
    execute options (.regex source) = .ok (a.deterministicDocument.render options.pretty) := by
  rw [execute, result, hread]
  simp only [hfinish]
  rfl

theorem execute_regex {source : String} {e : Regex} (hparse : Regex.parse source = .ok e)
    (halphabet : options.alphabet = none) {a : Automaton}
    (hfinish : finish (e.toAutomaton stem) options = .ok a) :
    execute options (.regex source) = .ok (a.deterministicDocument.render options.pretty) := by
  refine execute_regex_eq_ok ?_ hfinish
  rw [readRegex, hparse]
  simp only [halphabet, foreignSymbol?]

theorem exists_execute_of_literal {source : String} {e : Regex}
    (hparse : Regex.parse source = .ok e) (h : ∃ c ∈ e.literals, c ≠ epsilonChar) :
    ∃ text, execute .default (.regex source) = .ok text := by
  obtain ⟨d, hd, -⟩ := e.exists_minimal stem h
  have hfinish : finish (e.toAutomaton stem) .default = .ok d := by
    rw [finish, Options.default, if_pos rfl, hd]
    rfl
  exact ⟨_, execute_regex hparse rfl hfinish⟩

/-! ## What is read again -/

/-- The document that a command prints is read as an automaton with the same words, if no token
holds a comma or has a blank at one of its ends. The document of an expression without commas
and blanks is run to exactly the words of the expression, if there is a literal to read. -/
theorem parseAutomaton_printed (options : Options) (command : Command Automaton)
    (hprints : command.PrintsAutomaton) (text : String)
    (h : execute options command = .ok text)
    (hpositions : ∀ file, command = .invert file → FaithfulStates file.states) :
    ∃ r a b, result options command = .ok r ∧ r.automaton? = some a ∧
      Document.parseAutomaton text = .ok b ∧
      ((∀ t ∈ a.transitions, ∀ token ∈ t.label.tokens, Label.IsClean token) →
        ∀ w, b.accepts w = a.accepts w) ∧
      ∀ source e, command = .regex source → Regex.parse source = .ok e →
        (∀ c ∈ e.literals, c ≠ ',' ∧ Text.isBlank c = false) →
        (∀ w, b.verdict w = .accept ↔ w ∈ e.language ∧ ∃ c ∈ e.literals, c ≠ epsilonChar) ∧
        ((∀ c ∈ e.literals, c = epsilonChar) →
          options.minimise = false ∧ ∀ w, b.verdict w = .crash) := by
  obtain ⟨r, a, hresult, ha, hread⟩ := parseAutomaton_of_execute hprints h hpositions
  refine ⟨r, a, a.reread, hresult, ha, hread, Automaton.accepts_reread, ?_⟩
  rintro source e rfl hparse hliterals
  -- What was printed for an expression is what `finish` gives, and reading changes nothing of it.
  obtain ⟨d, hfinish, hd⟩ := exists_finish_of_execute hparse h
  have hsame : a.reread = d := by
    rw [← reread_of_finish hliterals hfinish]
    exact Except.ok.inj (hread.symm.trans hd)
  rw [hsame]
  refine ⟨fun w => ?_, fun hnone => ?_⟩
  · by_cases hread : ∃ c ∈ e.literals, c ≠ epsilonChar
    · rw [(finish_of_literal hread hfinish).2 w]
      exact ⟨fun hw => ⟨hw, hread⟩, fun hw => hw.1⟩
    · have hnone := hread
      push Not at hnone
      rw [(finish_of_no_literal hnone hfinish).2.2 w]
      simp [hread]
  · obtain ⟨hminimise, -, hcrash⟩ := finish_of_no_literal hnone hfinish
    exact ⟨hminimise, hcrash⟩

/-- A drawn state with a loop. -/
def loop : Automaton :=
  .ofLists [⟨"p", true, false, some Automaton.corner⟩] [⟨"p", "p", ⟨["a", "b"]⟩⟩]

theorem parseAutomaton_printed_loop :
    (FaithfulStates loop.states ∧
      ∃ text b, execute .default (.invert loop) = .ok text ∧
        Document.parseAutomaton text = .ok b ∧ ∀ w, b.accepts w = loop.invert.accepts w) ∧
    (Regex.parse "a|b*" = .ok (.alt [.char 'a', .many (.char 'b')]) ∧
      ∃ text b, execute .default (.regex "a|b*") = .ok text ∧
        Document.parseAutomaton text = .ok b ∧
        ∀ w, b.verdict w = .accept ↔
          w ∈ (Regex.alt [.char 'a', .many (.char 'b')]).language) := by
  have hfaithful : FaithfulStates loop.states := by
    intro s hs p hp
    rw [List.mem_singleton.1 (Automaton.mem_of_mem_states_ofLists hs)] at hp
    cases hp
    exact Automaton.faithful_corner
  have hparse : Regex.parse "a|b*" = .ok (.alt [.char 'a', .many (.char 'b')]) := by
    decide +kernel
  have hread : ∃ c ∈ (Regex.alt [.char 'a', .many (.char 'b')]).literals, c ≠ epsilonChar :=
    ⟨'a', by decide, by decide⟩
  refine ⟨⟨hfaithful, loop.invert.deterministicDocument.render true, ?_⟩, hparse, ?_⟩
  · obtain ⟨r, a, b, hresult, ha, hb, haccepts, -⟩ :=
      parseAutomaton_printed .default (.invert loop) trivial _ rfl fun file hfile =>
        Command.invert.inj hfile ▸ hfaithful
    obtain rfl := Except.ok.inj hresult
    obtain rfl := Option.some.inj ha
    have htokens : ∀ token ∈ ["a", "b"], Label.IsClean token := by
      intro token htoken
      rcases List.mem_pair.1 htoken with rfl | rfl
      · exact Label.isClean_singleton (c := 'a') (by decide) (by decide)
      · exact Label.isClean_singleton (c := 'b') (by decide) (by decide)
    refine ⟨b, rfl, hb, haccepts fun t ht => ?_⟩
    rw [List.mem_singleton.1 ht]
    exact htokens
  · obtain ⟨text, htext⟩ := exists_execute_of_literal hparse hread
    obtain ⟨r, a, b, -, -, hb, -, hrun⟩ :=
      parseAutomaton_printed .default (.regex "a|b*") trivial text htext (by simp)
    have hliterals : ∀ c ∈ (Regex.alt [.char 'a', .many (.char 'b')]).literals,
        c ≠ ',' ∧ Text.isBlank c = false := by
      intro c hc
      have hliterals : (Regex.alt [.char 'a', .many (.char 'b')]).literals = ['a', 'b'] := rfl
      rw [hliterals] at hc
      rcases List.mem_pair.1 hc with rfl | rfl
      · decide
      · decide
    refine ⟨text, b, htext, hb, fun w => ?_⟩
    rw [(hrun _ _ rfl hparse hliterals).1 w]
    exact and_iff_left hread

/-! ## What is not read again -/

/-- The documents of an expression that is a single literal do not accept the literal, neither
the deterministic one nor the other. -/
def IsLost (c : Char) : Prop :=
  Regex.parse (String.singleton c) = .ok (.char c) ∧ [c] ∈ (Regex.char c).language ∧
    (∃ text b, execute .default (.regex (String.singleton c)) = .ok text ∧
      Document.parseAutomaton text = .ok b ∧ b.verdict [c] ≠ .accept) ∧
    ∃ text b, execute .default (.nfa (String.singleton c)) = .ok text ∧
      Document.parseAutomaton text = .ok b ∧
      ((Regex.char c).toAutomaton stem).accepts [c] = true ∧ ¬ b.accepts [c] = true

theorem isLost_of_separator {c : Char} (hc : ¬ (c ≠ ',' ∧ Text.isBlank c = false))
    (hread : c ≠ epsilonChar) (hparse : Regex.parse (String.singleton c) = .ok (.char c)) :
    IsLost c := by
  have hlanguage : [c] ∈ (Regex.char c).language := by
    rw [Regex.language, if_neg hread]
    rfl
  have hliteral : ∃ d ∈ (Regex.char c).literals, d ≠ epsilonChar :=
    ⟨c, by rw [Regex.literals]; exact List.mem_singleton_self c, hread⟩
  refine ⟨hparse, hlanguage, ?_, ?_⟩
  · obtain ⟨text, htext⟩ := exists_execute_of_literal hparse hliteral
    obtain ⟨a, -, ha⟩ := exists_finish_of_execute hparse htext
    obtain ⟨d, -, hd⟩ := exists_of_map_eq_ok ha
    refine ⟨text, _, htext, ha, fun haccept => ?_⟩
    rw [← hd] at haccept
    exact hc (Automaton.not_separator_of_accept d haccept c (List.mem_singleton_self c))
  · have htext : execute .default (.nfa (String.singleton c)) =
        .ok (((Regex.char c).toAutomaton stem).nondeterministicDocument.render true) := by
      rw [execute, result, readRegex, hparse]
      rfl
    have hb := Automaton.parseAutomaton_render
      ((Regex.char c).faithfulStates_toAutomaton stem)
      (some ((Regex.char c).toAutomaton stem).alphabet) true
    obtain ⟨d, -, hd⟩ := exists_of_map_eq_ok hb
    refine ⟨_, _, htext, hb, ?_, fun haccepts => ?_⟩
    · rw [Automaton.accepts_iff_mem_language, Regex.language_toAutomaton]
      exact hlanguage
    · rw [← hd] at haccepts
      exact hc (Automaton.not_separator_of_accepts d haccepts c (List.mem_singleton_self c))

/-- Without minimisation, the document of `ε` is printed, but it crashes on the empty word,
which matches. The documents of a comma and of a blank do not accept these. -/
theorem printed_not_read_back :
    (Regex.parse "ε" = .ok (.char 'ε') ∧ [] ∈ (Regex.char 'ε').language ∧
      ∃ text b, execute ⟨none, false, true⟩ (.regex "ε") = .ok text ∧
        Document.parseAutomaton text = .ok b ∧ b.verdict [] = .crash) ∧
    IsLost ',' ∧ IsLost ' ' := by
  have hepsilon : Regex.parse "ε" = .ok (.char 'ε') := by decide +kernel
  have hcomma : Regex.parse "," = .ok (.char ',') := by decide +kernel
  have hblank : Regex.parse " " = .ok (.char ' ') := by decide +kernel
  refine ⟨⟨hepsilon, ?_, ?_⟩, ?_, ?_⟩
  · rw [Regex.language, epsilonChar, if_pos rfl]
    exact Language.nil_mem_one
  · have hfinish : finish ((Regex.char 'ε').toAutomaton stem) ⟨none, false, true⟩ =
        .ok ((Regex.char 'ε').toAutomaton stem).determinise := rfl
    have hliterals : ∀ c ∈ (Regex.char 'ε').literals, c = epsilonChar := by
      rw [Regex.literals, List.forall_mem_singleton]
      rfl
    have hclean : ∀ c ∈ (Regex.char 'ε').literals, c ≠ ',' ∧ Text.isBlank c = false := by
      rw [Regex.literals, List.forall_mem_singleton]
      decide
    have htext := execute_regex hepsilon rfl hfinish
    have hread := reread_of_finish hclean hfinish
    obtain ⟨-, -, hcrash⟩ := finish_of_no_literal hliterals hfinish
    obtain ⟨a, ha, hb⟩ := exists_finish_of_execute hepsilon htext
    obtain rfl := Except.ok.inj (hfinish.symm.trans ha)
    rw [hread] at hb
    exact ⟨_, _, htext, hb, hcrash []⟩
  · exact isLost_of_separator (by decide) (by decide) hcomma
  · exact isLost_of_separator (by decide) (by decide) hblank

end Command

end FiniteState
