import FiniteState.Proofs.Table.Quotient
import FiniteState.Table.Correspondence

/-!
# Tables that tell the same words apart

A table tells two words apart if they lead to different states. A table that tells apart all
words that another one does refines it: where it ends decides where the other one ends. Tables
that refine each other and say the same of every word correspond, as the state to which a word
leads on the one side is paired off with the state to which it leads on the other. How the tables
have been made plays no part in this.
-/

namespace FiniteState.Table

/-- Words that lead to one state of `t` lead to one state of `u`. -/
def Refines (t u : Table) : Prop :=
  ∀ v w i, t.run? t.start v = some i → t.run? t.start w = some i →
    u.run? u.start v = u.run? u.start w

variable {t u : Table}

/-- The state of a table decides the state of each table that it refines. -/
theorem Refines.exists_follower (h : t.Refines u) (ht : t.WellFormed) (hu : u.WellFormed)
    (halphabet : u.alphabet = t.alphabet) : ∃ f : Nat → Nat, ∀ i w,
      t.run? t.start w = some i → u.run? u.start w = some (f i) := by
  have hfollower : ∀ i, ∃ j, ∀ w, t.run? t.start w = some i → u.run? u.start w = some j := by
    intro i
    by_cases hi : t.LeadsTo i
    · obtain ⟨v, hv⟩ := hi
      obtain ⟨j, hj⟩ := ht.exists_run? hu halphabet hv
      exact ⟨j, fun w hw => (h w v i hw hv).trans hj⟩
    · exact ⟨0, fun w hw => absurd ⟨w, hw⟩ hi⟩
  choose f hf using hfollower
  exact ⟨f, hf⟩

/-- Tables over one alphabet correspond if they tell the same words apart and say the same of
every word. -/
theorem Refines.exists_corresponds (htu : t.Refines u) (hut : u.Refines t) (ht : t.WellFormed)
    (hu : u.WellFormed) (halphabet : u.alphabet = t.alphabet)
    (hsame : ∀ w, u.verdict w = t.verdict w) : ∃ f, t.Corresponds u f := by
  obtain ⟨f, hf⟩ := htu.exists_follower ht hu halphabet
  have hstart : f t.start = u.start := (Option.some.inj (hf t.start [] rfl)).symm
  refine ⟨f, ⟨?mapsTo, ?injOn, ?surjOn⟩, hstart, ?accepting, ?step⟩
  case mapsTo =>
    rintro i ⟨w, hw⟩
    exact ⟨w, hf i w hw⟩
  case injOn =>
    rintro i ⟨v, hv⟩ j ⟨w, hw⟩ heq
    have hback := hut v w (f i) (hf i v hv) (heq ▸ hf j w hw)
    exact Option.some.inj (hv.symm.trans (hback.trans hw))
  case surjOn =>
    rintro j ⟨w, hw⟩
    obtain ⟨i, hi⟩ := hu.exists_run? ht halphabet.symm hw
    exact ⟨i, ⟨w, hi⟩, Option.some.inj ((hf i w hi).symm.trans hw)⟩
  case accepting =>
    rintro i ⟨w, hw⟩
    have hverdict := hsame w
    rw [verdict, verdict, hw, hf i w hw] at hverdict
    cases hti : t.accepting i <;> cases hui : u.accepting (f i) <;> simp [hti, hui] at hverdict ⊢
  case step =>
    rintro i ⟨w, hw⟩ c
    have hrun := hf i w hw
    have hlt := ht.lt_of_run? ht.start_lt hw
    have hlt' := hu.lt_of_run? hu.start_lt hrun
    cases hc : t.step? i c with
    | none =>
        have hnot : ¬ c ∈ u.alphabet := by
          rw [halphabet, ← ht.step?_isSome_iff i hlt c, hc]
          simp
        rw [← hu.step?_isSome_iff (f i) hlt' c] at hnot
        simpa using hnot
    | some next =>
        have hlonger : t.run? t.start (w ++ [c]) = some next := by
          rw [run?_append, hw, Option.bind_some, run?_cons, hc]
          rfl
        have hlonger' := hf next _ hlonger
        rw [run?_append, hrun, Option.bind_some, run?_cons] at hlonger'
        obtain ⟨k, hk, hlast⟩ := Option.bind_eq_some_iff.1 hlonger'
        rw [hk, Option.map_some]
        exact hlast

end FiniteState.Table
