import FiniteState.Proofs.Automaton.Table
import FiniteState.Proofs.Table.Product

/-!
# Boolean combinations

Two complete deterministic automata are combined by the product of their tables, whatever
their alphabets are. An automaton crashes on a symbol that it lacks, which counts as not
accepting, so the combination may well accept a word on which one side or both sides crash.
-/

namespace FiniteState.Automaton

variable {a b : Automaton} {S T : Alphabet}

theorem combine_eq_error_left {d : Defect} (h : a.validate none = .error d) (b : Automaton)
    (accept : Bool → Bool → Bool) : a.combine b accept = .error d := by
  rw [combine, table?_eq_error h]

theorem combine_eq_error_right {d : Defect} (ha : a.IsComplete S)
    (h : b.validate none = .error d) (accept : Bool → Bool → Bool) :
    a.combine b accept = .error d := by
  rw [combine, ha.table?, table?_eq_error h]

theorem IsComplete.combine_eq (ha : a.IsComplete S) (hb : b.IsComplete T)
    (accept : Bool → Bool → Bool) : a.combine b accept =
      .ok ((a.tableOver S).product (b.tableOver T) accept).toAutomaton := by
  rw [combine, ha.table?, hb.table?]

/-- The combination of complete deterministic automata is complete and deterministic over the
symbols of both, and puts their answers together. -/
theorem IsComplete.exists_combine (ha : a.IsComplete S) (hb : b.IsComplete T)
    (accept : Bool → Bool → Bool) : ∃ c, a.combine b accept = .ok c ∧
      c.IsComplete (S.union T) ∧ ∀ w, c.verdict w =
        if w.all (· ∈ S.union T) then
          if accept (decide (a.verdict w = .accept)) (decide (b.verdict w = .accept))
          then .accept else .reject
        else .crash := by
  have hl := ha.valid_tableOver
  have hr := hb.valid_tableOver
  have hproduct := hl.product accept hr
  refine ⟨_, ha.combine_eq hb accept, hproduct.isComplete_toAutomaton, fun w => ?_⟩
  rw [hproduct.verdict_toAutomaton, Table.verdict_product accept hl hr, ha.verdict_eq,
    hb.verdict_eq]
  rfl

/-- Which words over both alphabets a combination accepts. -/
theorem IsComplete.exists_combine_accept (ha : a.IsComplete S) (hb : b.IsComplete T)
    (accept : Bool → Bool → Bool) : ∃ c, a.combine b accept = .ok c ∧ c.IsComplete (S.union T) ∧
      ∀ w, (∀ c ∈ w, c ∈ S.union T) → (c.verdict w = .accept ↔
        accept (decide (a.verdict w = .accept)) (decide (b.verdict w = .accept)) = true) := by
  obtain ⟨c, hc, hcomplete, hverdict⟩ := ha.exists_combine hb accept
  refine ⟨c, hc, hcomplete, fun w hw => ?_⟩
  have hall : w.all (· ∈ S.union T) = true := by simpa using hw
  rw [hverdict, if_pos hall]
  split
  · next h => exact iff_of_true rfl h
  · next h => exact iff_of_false (by decide) h

/-- Combining automata that are complete and deterministic over `S` and `T` gives one over the
union of both. It says of the words over this alphabet what the function makes of whether each
side accepts, and crashes on the others. If a side has a defect, the defect is given, that of the
left side first. -/
theorem combine_correct (a b : Automaton) (accept : Bool → Bool → Bool) :
    match a.validate none, b.validate none with
    | .error d, _ => a.combine b accept = .error d
    | .ok _, .error d => a.combine b accept = .error d
    | .ok S, .ok T => ∃ c, a.combine b accept = .ok c ∧ c.validate none = .ok (S.union T) ∧
        ∀ w, c.verdict w =
          if w.all (· ∈ S.union T) then
            if accept (decide (a.verdict w = .accept)) (decide (b.verdict w = .accept))
            then .accept else .reject
          else .crash := by
  cases hS : a.validate none with
  | error d => exact combine_eq_error_left hS b accept
  | ok S =>
      have ha := (validate_none_eq_ok_iff a S).1 hS
      cases hT : b.validate none with
      | error d => exact combine_eq_error_right ha hT accept
      | ok T =>
          have hb := (validate_none_eq_ok_iff b T).1 hT
          obtain ⟨c, hc, hcomplete, hverdict⟩ := ha.exists_combine hb accept
          exact ⟨c, hc, (validate_none_eq_ok_iff c _).2 hcomplete, hverdict⟩

end FiniteState.Automaton
