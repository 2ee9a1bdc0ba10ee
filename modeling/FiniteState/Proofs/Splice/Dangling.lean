import FiniteState.Proofs.Splice.Language

/-!
# Dangling transitions

A transition that names a state that does not exist means nothing for what an automaton accepts. In
a graph with expressions this is so as long as the transition dangles in what is constructed as
well. The new states are called so that they differ from the states of the graph, but nothing keeps
them from being called like the missing end of a transition. Such a transition then joins states of
the automaton that is constructed, and more words may be accepted than without it.
-/

namespace FiniteState.Automaton

variable {a n : Automaton} {alphabet : Option Alphabet}

/-- The construction fails if some label is neither a list of symbols nor an expression. -/
theorem exists_splice_eq_error_iff (a : Automaton) (alphabet : Option Alphabet) :
    (∃ e, a.splice alphabet = .error e) ↔
      ∃ t ∈ a.transitions, ∃ cause, Unreadable alphabet t cause :=
  (exists_congr fun _ => spliceFrom_eq_error_iff).trans exists_reportsFirst_iff

/-- Without some transitions there are no more labels that cannot be read. -/
theorem exists_splice_withoutDangling (h : a.splice alphabet = .ok n) :
    ∃ m, a.withoutDangling.splice alphabet = .ok m := by
  cases hm : a.withoutDangling.splice alphabet with
  | ok m => exact ⟨m, rfl⟩
  | error e =>
      obtain ⟨t, ht, hcause⟩ := (exists_splice_eq_error_iff _ _).1 ⟨e, hm⟩
      obtain ⟨e', he'⟩ := (exists_splice_eq_error_iff a alphabet).2
        ⟨t, (List.mem_filter.1 ht).1, hcause⟩
      rw [h] at he'
      cases he'

/-- If a graph can be spliced, so can it without the transitions that dangle, and all that is
accepted then is accepted with them too. The same words are accepted with and without them, if each
of them has an end that is not a state of the automaton that is constructed either. -/
theorem splice_withoutDangling (h : a.splice alphabet = .ok n) :
    ∃ m, a.withoutDangling.splice alphabet = .ok m ∧
      (∀ w, m.accepts w = true → n.accepts w = true) ∧
      ((∀ t ∈ a.transitions, t.joins a.names = false →
          t.source ∉ n.names ∨ t.target ∉ n.names) →
        ∀ w, n.accepts w = m.accepts w) := by
  obtain ⟨i, core, hcore, haccepts⟩ := exists_core h
  obtain ⟨m, hm⟩ := exists_splice_withoutDangling h
  have hsame : ∀ w, core.accepts w = m.accepts w := by
    intro w
    rw [Bool.eq_iff_iff, haccepts, splice_accepts_iff (fun t => joins_of_mem_withoutDangling) hm]
  refine ⟨m, hm, fun w hw => ?_, fun hdangling w => ?_⟩
  · exact hcore.accepts_of_core ((hsame w).trans hw)
  · exact (hcore.accepts_eq hdangling w).trans (hsame w)

/-- Two transitions lead to a state that does not exist, one of them from a state that is called
like one that replaces an expression. -/
def looseEnds : Automaton :=
  ofLists [⟨"A", true, false, none⟩, ⟨"B", false, true, none⟩]
    [⟨"A", "Z", ⟨["x"]⟩⟩, ⟨"A", "B", ⟨["ab"]⟩⟩, ⟨"t1.1", "Z", ⟨["cd"]⟩⟩]

/-- Both transitions may be left out. -/
theorem splice_looseEnds : ∃ n m, looseEnds.splice none = .ok n ∧
    looseEnds.withoutDangling.splice none = .ok m ∧ "t1.1" ∈ n.names ∧
    (∀ t ∈ looseEnds.transitions, t.joins looseEnds.names = false →
      t.source ∉ n.names ∨ t.target ∉ n.names) ∧ ∀ w, n.accepts w = m.accepts w := by
  have hnames : (looseEnds.splice none).map names = .ok ["A", "B", "t1.0", "t1.1", "t1.2", "t1.3",
      "t2.0", "t2.1", "t2.2", "t2.3"] := by decide +kernel
  cases hn : looseEnds.splice none with
  | error e =>
      rw [hn] at hnames
      cases hnames
  | ok n =>
      rw [hn] at hnames
      have hnames' := Except.ok.inj hnames
      have hdangling : ∀ t ∈ looseEnds.transitions, t.joins looseEnds.names = false →
          t.source ∉ n.names ∨ t.target ∉ n.names := by
        rw [hnames']
        decide +kernel
      obtain ⟨m, hm, -, hsame⟩ := splice_withoutDangling hn
      have hmem : "t1.1" ∈ n.names := by
        rw [hnames']
        decide +kernel
      exact ⟨n, m, rfl, hm, hmem, hdangling, hsame hdangling⟩

/-- A transition leads to a state that does not exist, but is called like one that replaces the
expression. -/
def hiddenEnd : Automaton :=
  ofLists [⟨"A", true, false, none⟩, ⟨"B", false, true, none⟩]
    [⟨"A", "t1.2", ⟨["x"]⟩⟩, ⟨"A", "B", ⟨["ab"]⟩⟩]

/-- A dangling transition may lead into the middle of an expression, and then words are accepted
that are not accepted without it. -/
theorem not_splice_inert : ¬ ∀ (a n m : Automaton) (alphabet : Option Alphabet),
    a.splice alphabet = .ok n → a.withoutDangling.splice alphabet = .ok m →
      ∀ w, n.accepts w = m.accepts w := by
  intro h
  have haccepts : (hiddenEnd.splice none).map (fun n => n.accepts ['x', 'b']) = .ok true := by
    decide +kernel
  have hrefuses : (hiddenEnd.withoutDangling.splice none).map (fun m => m.accepts ['x', 'b']) =
      .ok false := by decide +kernel
  cases hn : hiddenEnd.splice none with
  | error e =>
      rw [hn] at haccepts
      cases haccepts
  | ok n =>
      cases hm : hiddenEnd.withoutDangling.splice none with
      | error e =>
          rw [hm] at hrefuses
          cases hrefuses
      | ok m =>
          rw [hn] at haccepts
          rw [hm] at hrefuses
          have hyes : n.accepts ['x', 'b'] = true := Except.ok.inj haccepts
          have hno : m.accepts ['x', 'b'] = false := Except.ok.inj hrefuses
          have hsame := h hiddenEnd n m none hn hm ['x', 'b']
          rw [hyes, hno] at hsame
          cases hsame

end FiniteState.Automaton
