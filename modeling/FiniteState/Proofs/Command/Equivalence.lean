import FiniteState.Command.Execute
import FiniteState.Proofs.Automaton.Compare
import FiniteState.Proofs.Text.Quoted

/-!
# What the comparison of two automata prints

The command puts its answer together from two searches: one decides whether the automata are
equivalent, the other looks for a word that tells them apart. Over one alphabet the second search
finds a word exactly if the first says no, so that the alphabets differ is never said of automata
over one alphabet. The three answers are different texts, and a word can be told from how it is
quoted, so what is printed also says which case it is.
-/

namespace FiniteState.Command

/-! ## Texts -/

theorem witness_ne_equivalent (word : String) :
    "not equivalent\nwitness: " ++ word ≠ "equivalent" := by
  intro h
  simpa using congrArg String.toList h

theorem witness_ne_differ (word : String) :
    "not equivalent\nwitness: " ++ word ≠ "not equivalent: the alphabets differ" := by
  intro h
  simpa using congrArg String.toList h

theorem eq_of_witness_eq {v w : List Char} (h : "not equivalent\nwitness: " ++ Text.quoted v =
    "not equivalent\nwitness: " ++ Text.quoted w) : v = w := by
  have hlists := congrArg String.toList h
  rw [String.toList_append, String.toList_append] at hlists
  exact Text.quoted_injective (String.toList_injective (List.append_cancel_left hlists))

theorem intercalate_witness (word : String) :
    String.intercalate "\n" ["not equivalent", "witness: " ++ word] =
      "not equivalent\nwitness: " ++ word := by
  change "not equivalent" ++ "\n" ++ ("witness: " ++ word) = _
  apply String.toList_injective
  simp

variable {a b : Automaton} {S T : Alphabet} {options : Options}

theorem execute_equivalent_of_ok {lines : List String} (h : equivalence a b = .ok lines) :
    execute options (.equivalent a b) = .ok (String.intercalate "\n" lines) := by
  rw [execute, result, h]
  rfl

theorem execute_equivalent_of_error {d : Defect} (h : equivalence a b = .error d) :
    execute options (.equivalent a b) = .error (.invalid d) := by
  rw [execute, result, h]
  rfl

/-! ## Answers -/

/-- What is found out of two complete deterministic automata. -/
theorem equivalence_cases (ha : a.IsComplete S) (hb : b.IsComplete T) :
    (S = T ∧ (∀ w, ¬ a.Differ b w) ∧ equivalence a b = .ok ["equivalent"]) ∨
    (S = T ∧ ∃ w, a.Differ b w ∧
      equivalence a b = .ok ["not equivalent", "witness: " ++ Text.quoted w]) ∨
    (S ≠ T ∧ equivalence a b = .ok ["not equivalent: the alphabets differ"]) := by
  obtain ⟨e, he, hiff⟩ := ha.exists_equivalent hb
  have hS := (Automaton.validate_none_eq_ok_iff a S).2 ha
  have hT := (Automaton.validate_none_eq_ok_iff b T).2 hb
  cases e with
  | true =>
      obtain ⟨heq, hsame⟩ := hiff.1 rfl
      refine .inl ⟨heq, fun w hdiffer => hdiffer (by rw [hsame w]), ?_⟩
      rw [equivalence, he]
  | false =>
      rcases ha.distinguishing?_spec hb with ⟨hnone, hsame⟩ | ⟨w, hw, hfirst⟩
      · -- Over one alphabet such automata would have been found equivalent.
        have hne : S ≠ T := by
          rintro rfl
          refine Bool.false_ne_true (hiff.2 ⟨rfl, fun w => ha.verdict_eq_of_accept_iff hb ?_⟩)
          exact not_not.1 (hsame w)
        refine .inr (.inr ⟨hne, ?_⟩)
        rw [equivalence, he, hnone]
      · by_cases heq : S = T
        · refine .inr (.inl ⟨heq, w, hfirst.holds, ?_⟩)
          rw [equivalence, he, hw, hS, hT]
          simp [heq]
        · refine .inr (.inr ⟨heq, ?_⟩)
          rw [equivalence, he, hw, hS, hT]
          simp [Except.toOption, heq]

section

variable (options) (ha : a.IsComplete S) (hb : b.IsComplete T)

include ha hb

/-- What is printed of two complete deterministic automata. -/
theorem execute_equivalent_cases :
    (S = T ∧ (∀ w, ¬ a.Differ b w) ∧ execute options (.equivalent a b) = .ok "equivalent") ∨
    (S = T ∧ ∃ w, a.Differ b w ∧
      execute options (.equivalent a b) = .ok ("not equivalent\nwitness: " ++ Text.quoted w)) ∨
    (S ≠ T ∧ execute options (.equivalent a b) = .ok "not equivalent: the alphabets differ") := by
  rcases equivalence_cases ha hb with
    ⟨heq, hsame, hlines⟩ | ⟨heq, w, hdiffer, hlines⟩ | ⟨hne, hlines⟩
  · exact .inl ⟨heq, hsame, execute_equivalent_of_ok hlines⟩
  · refine .inr (.inl ⟨heq, w, hdiffer, ?_⟩)
    rw [execute_equivalent_of_ok hlines, intercalate_witness]
  · exact .inr (.inr ⟨hne, execute_equivalent_of_ok hlines⟩)

theorem execute_eq_equivalent_iff : execute options (.equivalent a b) = .ok "equivalent" ↔
    S = T ∧ ∀ w, a.verdict w = .accept ↔ b.verdict w = .accept := by
  rcases execute_equivalent_cases options ha hb with
    ⟨heq, hsame, hprint⟩ | ⟨-, w, hdiffer, hprint⟩ | ⟨hne, hprint⟩
  · exact iff_of_true hprint ⟨heq, fun w => not_not.1 (hsame w)⟩
  · rw [hprint, Except.ok.injEq]
    exact iff_of_false (witness_ne_equivalent _) fun h => hdiffer (h.2 w)
  · rw [hprint, Except.ok.injEq]
    exact iff_of_false (by decide) fun h => hne h.1

theorem exists_execute_eq_witness_iff : (∃ w, execute options (.equivalent a b) =
    .ok ("not equivalent\nwitness: " ++ Text.quoted w)) ↔ S = T ∧ ∃ w, a.Differ b w := by
  rcases execute_equivalent_cases options ha hb with
    ⟨-, hsame, hprint⟩ | ⟨heq, w, hdiffer, hprint⟩ | ⟨hne, hprint⟩
  · simp only [hprint, Except.ok.injEq]
    exact iff_of_false (not_exists.2 fun w => (witness_ne_equivalent _).symm)
      fun h => not_exists.2 hsame h.2
  · exact iff_of_true ⟨w, hprint⟩ ⟨heq, w, hdiffer⟩
  · simp only [hprint, Except.ok.injEq]
    exact iff_of_false (not_exists.2 fun w => (witness_ne_differ _).symm) fun h => hne h.1

/-- The witness that is printed is one. -/
theorem differ_of_execute_eq_witness {w : List Char} (h : execute options (.equivalent a b) =
    .ok ("not equivalent\nwitness: " ++ Text.quoted w)) : (∀ c ∈ w, c ∈ S) ∧ a.Differ b w := by
  rcases execute_equivalent_cases options ha hb with
    ⟨-, -, hprint⟩ | ⟨rfl, v, hdiffer, hprint⟩ | ⟨-, hprint⟩
  · rw [hprint, Except.ok.injEq] at h
    exact absurd h.symm (witness_ne_equivalent _)
  · rw [hprint, Except.ok.injEq] at h
    obtain rfl := eq_of_witness_eq h
    refine ⟨fun c hc => ?_, hdiffer⟩
    exact or_self_iff.1 ((Alphabet.mem_union S S c).1 (ha.mem_union_of_differ hb hdiffer c hc))
  · rw [hprint, Except.ok.injEq] at h
    exact absurd h.symm (witness_ne_differ _)

theorem execute_eq_differ_iff : execute options (.equivalent a b) =
    .ok "not equivalent: the alphabets differ" ↔ S ≠ T := by
  rcases execute_equivalent_cases options ha hb with
    ⟨heq, -, hprint⟩ | ⟨heq, w, -, hprint⟩ | ⟨hne, hprint⟩
  · rw [hprint, Except.ok.injEq]
    exact iff_of_false (by decide) (not_not.2 heq)
  · rw [hprint, Except.ok.injEq]
    exact iff_of_false (witness_ne_differ _) (not_not.2 heq)
  · exact iff_of_true hprint hne

end

/-- Of complete deterministic automata the command prints that they are equivalent exactly if they
have the same alphabet and accept the same words. It prints that they are not, with a witness,
exactly if they have the same alphabet and do not accept the same words, and the witness is a word
over this alphabet that exactly one of them accepts. It prints that the alphabets differ exactly
if they do. If a side has a defect, the command fails with the defect, that of the left side
first. -/
theorem execute_equivalent (options : Options) (a b : Automaton) :
    match a.validate none, b.validate none with
    | .error d, _ => execute options (.equivalent a b) = .error (.invalid d)
    | .ok _, .error d => execute options (.equivalent a b) = .error (.invalid d)
    | .ok S, .ok T =>
        (execute options (.equivalent a b) = .ok "equivalent" ↔
          S = T ∧ ∀ w, a.verdict w = .accept ↔ b.verdict w = .accept) ∧
        ((∃ w, execute options (.equivalent a b) =
            .ok ("not equivalent\nwitness: " ++ Text.quoted w)) ↔
          S = T ∧ ∃ w, a.Differ b w) ∧
        (∀ w, execute options (.equivalent a b) =
            .ok ("not equivalent\nwitness: " ++ Text.quoted w) →
          (∀ c ∈ w, c ∈ S) ∧ a.Differ b w) ∧
        (execute options (.equivalent a b) = .ok "not equivalent: the alphabets differ" ↔
          S ≠ T) := by
  cases hS : a.validate none with
  | error d =>
      refine execute_equivalent_of_error ?_
      rw [equivalence, Automaton.equivalent, hS]
  | ok S =>
      have ha := (Automaton.validate_none_eq_ok_iff a S).1 hS
      cases hT : b.validate none with
      | error d =>
          refine execute_equivalent_of_error ?_
          rw [equivalence, Automaton.equivalent, hS, hT]
      | ok T =>
          have hb := (Automaton.validate_none_eq_ok_iff b T).1 hT
          refine ⟨execute_eq_equivalent_iff options ha hb,
            exists_execute_eq_witness_iff options ha hb, fun w => ?_,
            execute_eq_differ_iff options ha hb⟩
          exact differ_of_execute_eq_witness options ha hb

end FiniteState.Command
