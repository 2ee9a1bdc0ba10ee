import FiniteState.Proofs.Splice.Core

/-!
# The language of a graph with expressions

The construction keeps the language of a graph: nothing is accepted but what leads over its
transitions, and nothing of that is lost. It succeeds unless some label is neither a list of
symbols nor an expression, and then tells the first such label.
-/

namespace FiniteState

namespace Automaton

/-- A graph whose transitions join its states accepts after the construction the words that it
accepted before. -/
theorem splice_accepts_iff {a n : Automaton} {alphabet : Option Alphabet}
    (hends : ∀ t ∈ a.transitions, t.source ∈ a.names ∧ t.target ∈ a.names)
    (h : a.splice alphabet = .ok n) (w : List Char) :
    n.accepts w = true ↔ w ∈ a.patternLanguage alphabet := by
  obtain ⟨i, core, hcore, haccepts⟩ := exists_core h
  have hdangling : ∀ t ∈ a.transitions, t.joins a.names = false →
      t.source ∉ n.names ∨ t.target ∉ n.names := by
    intro t ht hnot
    rw [(Transition.joins_iff a.names t).2 (hends t ht)] at hnot
    cases hnot
  rw [hcore.accepts_eq hdangling, haccepts, withoutDangling_eq_self hends]

/-! ## Labels that are no patterns -/

/-- The label of a transition does not list symbols, and its text is no expression either. -/
def Unreadable (alphabet : Option Alphabet) (t : Transition) (cause : Regex.ParseError) : Prop :=
  t.label.isPlain alphabet = false ∧ Regex.parse t.label.source = .error cause

/-- The error tells the ends, the text and the cause of the first transition of a list whose label
cannot be read. -/
def ReportsFirst (alphabet : Option Alphabet) (ts : List Transition) (e : LabelError) : Prop :=
  ∃ before t after cause, ts = before ++ t :: after ∧
    (∀ u ∈ before, ∀ c, ¬ Unreadable alphabet u c) ∧ Unreadable alphabet t cause ∧
      e = ⟨t.source, t.target, t.label.source, cause⟩

section

variable {alphabet : Option Alphabet} {t : Transition} {ts : List Transition} {e : LabelError}

theorem not_reportsFirst_nil : ¬ ReportsFirst alphabet [] e := by
  rintro ⟨before, t, after, cause, hsplit, -⟩
  cases before <;> cases hsplit

theorem reportsFirst_cons_of_unreadable {cause : Regex.ParseError}
    (h : Unreadable alphabet t cause) : ReportsFirst alphabet (t :: ts) e ↔
      e = ⟨t.source, t.target, t.label.source, cause⟩ := by
  constructor
  · rintro ⟨before, u, after, c, hsplit, hbefore, hu, rfl⟩
    cases before with
    | nil =>
        obtain ⟨rfl, -⟩ := List.cons.inj hsplit
        rw [Except.error.inj (hu.2.symm.trans h.2)]
    | cons x before =>
        obtain ⟨rfl, -⟩ := List.cons.inj hsplit
        exact absurd h (hbefore t List.mem_cons_self cause)
  · rintro rfl
    exact ⟨[], t, ts, cause, rfl, fun u hu => absurd hu List.not_mem_nil, h, rfl⟩

theorem reportsFirst_cons_of_readable (h : ∀ c, ¬ Unreadable alphabet t c) :
    ReportsFirst alphabet (t :: ts) e ↔ ReportsFirst alphabet ts e := by
  constructor
  · rintro ⟨before, u, after, c, hsplit, hbefore, hu, he⟩
    cases before with
    | nil =>
        obtain ⟨rfl, -⟩ := List.cons.inj hsplit
        exact absurd hu (h c)
    | cons x before =>
        obtain ⟨-, rfl⟩ := List.cons.inj hsplit
        exact ⟨before, u, after, c, rfl,
          fun y hy => hbefore y (List.mem_cons_of_mem x hy), hu, he⟩
  · rintro ⟨before, u, after, c, rfl, hbefore, hu, he⟩
    refine ⟨t :: before, u, after, c, rfl, fun y hy => ?_, hu, he⟩
    rcases List.mem_cons.1 hy with rfl | hy
    · exact h
    · exact hbefore y hy

/-- Some error can be reported if some label cannot be read. -/
theorem exists_reportsFirst_iff :
    (∃ e, ReportsFirst alphabet ts e) ↔ ∃ t ∈ ts, ∃ cause, Unreadable alphabet t cause := by
  induction ts with
  | nil =>
      refine iff_of_false (fun ⟨e, he⟩ => not_reportsFirst_nil he) ?_
      rintro ⟨t, ht, -⟩
      cases ht
  | cons t ts ih =>
      by_cases h : ∃ cause, Unreadable alphabet t cause
      · obtain ⟨cause, hcause⟩ := h
        exact iff_of_true ⟨_, (reportsFirst_cons_of_unreadable hcause).2 rfl⟩
          ⟨t, List.mem_cons_self, cause, hcause⟩
      · have hreadable := not_exists.1 h
        simp only [reportsFirst_cons_of_readable hreadable, ih, List.mem_cons, or_and_right,
          exists_or, exists_eq_left, h, false_or]

/-- The construction fails with what is reported, whatever has been built. -/
theorem spliceFrom_eq_error_iff {names : List String} {i : Nat} {built : Automaton} :
    spliceFrom names alphabet i built ts = .error e ↔ ReportsFirst alphabet ts e := by
  induction ts generalizing i built with
  | nil => exact iff_of_false (fun h => nomatch h) not_reportsFirst_nil
  | cons t ts ih =>
      cases hplain : t.label.isPlain alphabet with
      | true =>
          rw [spliceFrom_cons_of_isPlain hplain, ih, reportsFirst_cons_of_readable]
          exact fun c hc => Bool.false_ne_true (hc.1.symm.trans hplain)
      | false =>
          cases hr : Regex.parse t.label.source with
          | error c =>
              rw [spliceFrom_cons_of_error hplain hr,
                reportsFirst_cons_of_unreadable ⟨hplain, hr⟩, Except.error.injEq, eq_comm]
          | ok r =>
              rw [spliceFrom_cons_of_parse hplain hr, ih, reportsFirst_cons_of_readable]
              exact fun c hc => nomatch hr.symm.trans hc.2

end

/-- Splicing keeps the language of a graph whose transitions join its states. It fails if some
label is no pattern, and then it reports the first such label. -/
theorem splice_correct (a : Automaton) (alphabet : Option Alphabet)
    (hends : ∀ t ∈ a.transitions, t.source ∈ a.names ∧ t.target ∈ a.names) :
    (∀ n, a.splice alphabet = .ok n →
      ∀ w, n.accepts w = true ↔ w ∈ a.patternLanguage alphabet) ∧
    ((∃ e, a.splice alphabet = .error e) ↔
      ∃ t ∈ a.transitions, ∃ cause, Unreadable alphabet t cause) ∧
    ∀ e, a.splice alphabet = .error e ↔ ReportsFirst alphabet a.transitions e := by
  have herror : ∀ e, a.splice alphabet = .error e ↔ ReportsFirst alphabet a.transitions e :=
    fun e => spliceFrom_eq_error_iff
  refine ⟨fun n hn w => splice_accepts_iff hends hn w, ?_, herror⟩
  exact (exists_congr herror).trans exists_reportsFirst_iff

/-- A graph with an expression on a loop, and a state that is called like a spliced one. -/
def loopGraph : Automaton :=
  ofLists [⟨"t0.0", true, true, none⟩] [⟨"t0.0", "t0.0", ⟨["ab"]⟩⟩]

/-- The expression on the loop may be matched again and again. -/
theorem splice_loopGraph :
    (∀ t ∈ loopGraph.transitions, t.source ∈ loopGraph.names ∧ t.target ∈ loopGraph.names) ∧
      ∃ n, loopGraph.splice none = .ok n ∧ n.accepts ['a', 'b', 'a', 'b'] = true := by
  have hends : ∀ t ∈ loopGraph.transitions,
      t.source ∈ loopGraph.names ∧ t.target ∈ loopGraph.names := by decide +kernel
  have hplain : (Label.mk ["ab"]).isPlain none = false := by decide +kernel
  have hparse : Regex.parse (Label.mk ["ab"]).source =
      .ok (.concat [.char 'a', .char 'b']) := by decide +kernel
  obtain ⟨haccepts, hfails, -⟩ := splice_correct loopGraph none hends
  refine ⟨hends, ?_⟩
  cases hn : loopGraph.splice none with
  | error e =>
      obtain ⟨t, ht, cause, -, hcause⟩ := hfails.1 ⟨e, hn⟩
      obtain rfl := List.mem_singleton.1 ht
      exact nomatch hparse.symm.trans hcause
  | ok n =>
      refine ⟨n, rfl, (haccepts n hn _).2 ?_⟩
      have hword : ['a', 'b'] ∈ (Label.mk ["ab"]).patternPieces none := by
        rw [Label.mem_patternPieces_of_parse none _ hplain _ hparse, Regex.language,
          Regex.languageInTurn_cons _ _ (by simp), Regex.languageInTurn_singleton,
          Regex.language_char, Regex.language_char]
        have hletter : ∀ c, c ≠ epsilonChar → [c] ∈ ({literalWord c} : Language Char) :=
          fun c hc => (if_neg hc).symm
        exact Language.append_mem_mul (hletter 'a' (by decide)) (hletter 'b' (by decide))
      have hname : "t0.0" ∈ loopGraph.names := by decide +kernel
      have hloop : Path loopGraph (Label.patternPieces none) "t0.0" (['a', 'b'] ++ []) "t0.0" :=
        .cons (t := ⟨"t0.0", "t0.0", ⟨["ab"]⟩⟩) List.mem_cons_self hname hname hword (.nil _)
      exact ⟨_, List.mem_cons_self, _, List.mem_cons_self, hloop.append hloop⟩

end Automaton

end FiniteState
