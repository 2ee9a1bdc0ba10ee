import FiniteState.Proofs.Automaton.Combine
import FiniteState.Proofs.Automaton.Witness

/-!
# Comparison

Two complete deterministic automata are compared by the product that accepts the words that
exactly one of them accepts. Such a word is over the symbols of both, so the product misses no
difference, and the search for an accepted word of the product finds the first one.
-/

namespace FiniteState.Automaton

/-- Exactly one of two automata accepts the word. -/
def Differ (a b : Automaton) (w : List Char) : Prop :=
  ¬ (a.verdict w = .accept ↔ b.verdict w = .accept)

theorem differ_comm (a b : Automaton) (w : List Char) : b.Differ a w ↔ a.Differ b w :=
  not_congr ⟨Iff.symm, Iff.symm⟩

variable {a b : Automaton} {S T : Alphabet}

namespace IsComplete

/-- An automaton crashes on the words that are not over its alphabet. -/
theorem verdict_eq_crash_iff (h : a.IsComplete S) (w : List Char) :
    a.verdict w = .crash ↔ ∃ c ∈ w, ¬ c ∈ S := by
  rw [h.verdict_eq, Table.verdict_eq_verdictFrom]
  exact h.valid_tableOver.verdictFrom_eq_crash_iff h.valid_tableOver.start_lt w

theorem mem_of_accept (h : a.IsComplete S) {w : List Char} (hw : a.verdict w = .accept) :
    ∀ c ∈ w, c ∈ S := by
  intro c hc
  by_contra hnot
  have hcrash := (h.verdict_eq_crash_iff w).2 ⟨c, hc, hnot⟩
  rw [hw] at hcrash
  cases hcrash

/-- Over one alphabet, automata that accept the same words say the same of every word. -/
theorem verdict_eq_of_accept_iff (ha : a.IsComplete S) (hb : b.IsComplete S) {w : List Char}
    (h : a.verdict w = .accept ↔ b.verdict w = .accept) : a.verdict w = b.verdict w := by
  have hcrash := (ha.verdict_eq_crash_iff w).trans (hb.verdict_eq_crash_iff w).symm
  cases hva : a.verdict w <;> cases hvb : b.verdict w <;> simp [hva, hvb] at h hcrash ⊢

/-- A word that exactly one of two automata accepts is over the symbols of both. -/
theorem mem_union_of_differ (ha : a.IsComplete S) (hb : b.IsComplete T) {w : List Char}
    (h : a.Differ b w) : ∀ c ∈ w, c ∈ S.union T := by
  intro c hc
  rw [Alphabet.mem_union]
  by_cases hva : a.verdict w = .accept
  · exact .inr (ha.mem_of_accept hva c hc)
  · by_cases hvb : b.verdict w = .accept
    · exact .inl (hb.mem_of_accept hvb c hc)
    · exact absurd (iff_of_false hva hvb) h

/-- The product by exclusive or accepts the words on which the automata differ. -/
theorem exists_combine_xor (ha : a.IsComplete S) (hb : b.IsComplete T) :
    ∃ c, a.combine b BoolOp.xor.apply = .ok c ∧ c.IsComplete (S.union T) ∧
      ∀ w, c.verdict w = .accept ↔ a.Differ b w := by
  obtain ⟨c, hc, hcomplete, haccept⟩ := ha.exists_combine_accept hb BoolOp.xor.apply
  refine ⟨c, hc, hcomplete, fun w => ?_⟩
  have hxor : BoolOp.xor.apply (decide (a.verdict w = .accept)) (decide (b.verdict w = .accept)) =
      true ↔ a.Differ b w := by
    rw [Differ, BoolOp.apply]
    by_cases hva : a.verdict w = .accept <;> by_cases hvb : b.verdict w = .accept <;>
      simp [hva, hvb]
  constructor
  · intro h
    exact hxor.1 ((haccept w (hcomplete.mem_of_accept h)).1 h)
  · intro h
    exact (haccept w (ha.mem_union_of_differ hb h)).2 (hxor.2 h)

/-- What is found to tell two automata apart. -/
theorem distinguishing?_spec (ha : a.IsComplete S) (hb : b.IsComplete T) :
    (a.distinguishing? b = .ok none ∧ ∀ w, ¬ a.Differ b w) ∨
      ∃ w, a.distinguishing? b = .ok (some w) ∧ IsFirst (a.Differ b) w := by
  obtain ⟨c, hc, hcomplete, hverdict⟩ := ha.exists_combine_xor hb
  have hword : a.distinguishing? b = .ok c.witness? := by
    rw [distinguishing?, hc]
  rw [hword]
  cases hw : c.witness? with
  | none =>
      refine .inl ⟨rfl, fun w hdiffer => ?_⟩
      exact (hcomplete.witness?_eq_none_iff.1 hw) w ((hverdict w).2 hdiffer)
  | some w =>
      have hfirst := hcomplete.isFirst_of_witness? hw
      refine .inr ⟨w, rfl, (hverdict w).1 hfirst.holds, fun v hv => ?_⟩
      exact hfirst.first v ((hverdict v).2 hv)

/-- The sides may be swapped. -/
theorem distinguishing?_comm (ha : a.IsComplete S) (hb : b.IsComplete T) :
    b.distinguishing? a = a.distinguishing? b := by
  rcases ha.distinguishing?_spec hb with ⟨hab, hnone⟩ | ⟨w, hab, hw⟩
  · rcases hb.distinguishing?_spec ha with ⟨hba, -⟩ | ⟨v, -, hv⟩
    · rw [hab, hba]
    · exact absurd ((differ_comm a b v).1 hv.holds) (hnone v)
  · rcases hb.distinguishing?_spec ha with ⟨-, hnone⟩ | ⟨v, hba, hv⟩
    · exact absurd ((differ_comm a b w).2 hw.holds) (hnone w)
    · have hv' : IsFirst (a.Differ b) v :=
        ⟨(differ_comm a b v).1 hv.holds, fun u hu => hv.first u ((differ_comm a b u).2 hu)⟩
      rw [hab, hba, hv'.unique hw]

/-- Two automata are found equivalent if they have the same alphabet and say the same of every
word. -/
theorem exists_equivalent (ha : a.IsComplete S) (hb : b.IsComplete T) :
    ∃ e, a.equivalent b = .ok e ∧ (e = true ↔ S = T ∧ ∀ w, a.verdict w = b.verdict w) := by
  rw [equivalent, (validate_none_eq_ok_iff a S).2 ha, (validate_none_eq_ok_iff b T).2 hb]
  by_cases heq : S = T
  · subst heq
    obtain ⟨c, hc, hcomplete, hverdict⟩ := ha.exists_combine_xor hb
    refine ⟨c.isEmpty, by simp [hc], ?_⟩
    rw [isEmpty_iff, hcomplete.witness?_eq_none_iff]
    constructor
    · intro hnone
      refine ⟨rfl, fun w => ha.verdict_eq_of_accept_iff hb ?_⟩
      exact not_not.1 fun hdiffer => hnone w ((hverdict w).2 hdiffer)
    · rintro ⟨-, hsame⟩ w hw
      exact (hverdict w).1 hw (by rw [hsame w])
  · exact ⟨false, by simp [heq], by simp [heq]⟩

end IsComplete

/-- Of complete deterministic automata, `equivalent` says whether the alphabets and all verdicts
are the same, and `distinguishing?` gives the first word that exactly one side accepts, if there
is one, whichever side is named first. If a side has a defect, both give the defect, that of the
left side first. -/
theorem compare_correct (a b : Automaton) :
    match a.validate none, b.validate none with
    | .error d, _ => a.equivalent b = .error d ∧ a.distinguishing? b = .error d
    | .ok _, .error d => a.equivalent b = .error d ∧ a.distinguishing? b = .error d
    | .ok S, .ok T =>
        (∃ e, a.equivalent b = .ok e ∧ (e = true ↔ S = T ∧ ∀ w, a.verdict w = b.verdict w)) ∧
        (a.distinguishing? b = .ok none ↔
          ∀ w, a.verdict w = .accept ↔ b.verdict w = .accept) ∧
        ((∃ w, a.Differ b w) →
          ∃ w, a.distinguishing? b = .ok (some w) ∧ IsFirst (a.Differ b) w) ∧
        b.distinguishing? a = a.distinguishing? b := by
  cases hS : a.validate none with
  | error d =>
      refine ⟨?_, ?_⟩
      · rw [equivalent, hS]
      · rw [distinguishing?, combine_eq_error_left hS]
  | ok S =>
      have ha := (validate_none_eq_ok_iff a S).1 hS
      cases hT : b.validate none with
      | error d =>
          refine ⟨?_, ?_⟩
          · rw [equivalent, hS, hT]
          · rw [distinguishing?, combine_eq_error_right ha hT]
      | ok T =>
          have hb := (validate_none_eq_ok_iff b T).1 hT
          refine ⟨ha.exists_equivalent hb, ?_, ?_, ha.distinguishing?_comm hb⟩
          · rcases ha.distinguishing?_spec hb with ⟨hab, hnone⟩ | ⟨w, hab, hw⟩
            · exact iff_of_true hab fun w => not_not.1 (hnone w)
            · rw [hab]
              refine iff_of_false (by simp) fun hsame => hw.holds (hsame w)
          · rintro ⟨v, hv⟩
            rcases ha.distinguishing?_spec hb with ⟨-, hnone⟩ | hfound
            · exact absurd hv (hnone v)
            · exact hfound

end FiniteState.Automaton
