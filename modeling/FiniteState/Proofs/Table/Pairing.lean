import Mathlib.Data.List.Perm.Subperm
import FiniteState.Proofs.Table.Lookup
import FiniteState.Table.Correspondence
import FiniteState.Table.Pairing

/-!
# What the pairing decides

Two tables are found to be the same machine exactly if they have as many states, the same
alphabet, and corresponding reachable states. The pairs that have been found are a partial
bijection, whatever has been taken from the queue, and those that are done have been followed.
When the queue is empty the pairs are therefore closed under moves and contain all that a word
leads to. If the states do correspond, all pairs that are ever found belong to the
correspondence, so no pair can be refused.
-/

namespace FiniteState.Table

variable {left right : Table} {done queue paired ps new pairs : List (Nat × Nat)} {f : Nat → Nat}

/-! ## Pairs -/

/-- No state has two partners. -/
structure Matched (pairs : List (Nat × Nat)) : Prop where
  left : (pairs.map Prod.fst).Nodup
  right : (pairs.map Prod.snd).Nodup

namespace Matched

theorem eq_of_fst (h : Matched pairs) {p q : Nat × Nat} (hp : p ∈ pairs) (hq : q ∈ pairs)
    (heq : p.1 = q.1) : p = q :=
  List.inj_on_of_nodup_map h.left hp hq heq

theorem eq_of_snd (h : Matched pairs) {p q : Nat × Nat} (hp : p ∈ pairs) (hq : q ∈ pairs)
    (heq : p.2 = q.2) : p = q :=
  List.inj_on_of_nodup_map h.right hp hq heq

theorem snoc (h : Matched pairs) {p : Nat × Nat}
    (hfree : ¬ (pairs.any fun q => q.1 == p.1 || q.2 == p.2) = true) :
    Matched (pairs ++ [p]) := by
  have hnew : ∀ q ∈ pairs, q.1 ≠ p.1 ∧ q.2 ≠ p.2 := by
    intro q hq
    refine not_or.1 fun heq => hfree (List.any_eq_true.2 ⟨q, hq, ?_⟩)
    rwa [Bool.or_eq_true, beq_iff_eq, beq_iff_eq]
  constructor
  · rw [List.map_append, List.nodup_append]
    refine ⟨h.left, List.nodup_singleton _, ?_⟩
    intro a ha b hb
    obtain ⟨q, hq, rfl⟩ := List.mem_map.1 ha
    rw [List.mem_singleton.1 hb]
    exact (hnew q hq).1
  · rw [List.map_append, List.nodup_append]
    refine ⟨h.right, List.nodup_singleton _, ?_⟩
    intro a ha b hb
    obtain ⟨q, hq, rfl⟩ := List.mem_map.1 ha
    rw [List.mem_singleton.1 hb]
    exact (hnew q hq).2

/-- The partners of a matching, as a function. -/
theorem exists_partner (h : Matched pairs) : ∃ f : Nat → Nat, ∀ p ∈ pairs, f p.1 = p.2 := by
  have hpartner : ∀ i, ∃ j, ∀ p ∈ pairs, p.1 = i → j = p.2 := by
    intro i
    by_cases hi : ∃ p ∈ pairs, p.1 = i
    · obtain ⟨p, hp, rfl⟩ := hi
      exact ⟨p.2, fun q hq heq => (congrArg Prod.snd (h.eq_of_fst hq hp heq)).symm⟩
    · exact ⟨0, fun p hp heq => absurd ⟨p, hp, heq⟩ hi⟩
  choose f hf using hpartner
  exact ⟨f, fun p hp => hf p.1 p hp rfl⟩

end Matched

/-- The pairs that one symbol leads to. -/
theorem mem_zip_next_iff (hl : left.WellFormed) (hr : right.WellFormed)
    (halphabet : left.alphabet = right.alphabet) {i j : Nat} (hi : i < left.size)
    (hj : j < right.size) (p : Nat × Nat) : p ∈ (left.next i).zip (right.next j) ↔
      ∃ c, left.step? i c = some p.1 ∧ right.step? j c = some p.2 := by
  obtain ⟨g, hg⟩ := hl.exists_next_eq_map hi
  obtain ⟨k, hk⟩ := hr.exists_next_eq_map hj
  rw [hg, hk, ← halphabet, List.zip_map', List.mem_map]
  simp only [step?_of_next hg, step?_of_next hk, ← halphabet,
    Option.ite_none_right_eq_some, Option.some.injEq]
  constructor
  · rintro ⟨c, hc, rfl⟩
    exact ⟨c, ⟨hc, rfl⟩, hc, rfl⟩
  · rintro ⟨c, ⟨hc, hfst⟩, -, hsnd⟩
    exact ⟨c, hc, Prod.ext hfst hsnd⟩

/-! ## The step -/

theorem joinPairs_cons_of_mem {p : Nat × Nat} (hp : p ∈ paired) :
    joinPairs left right paired (p :: ps) = joinPairs left right paired ps := by
  rw [joinPairs, if_pos hp]

theorem joinPairs_cons_eq_ok_iff {p : Nat × Nat} (hp : p ∉ paired) :
    joinPairs left right paired (p :: ps) = .ok new ↔
      ¬ (paired.any fun q => q.1 == p.1 || q.2 == p.2) = true ∧
        ∃ rest, joinPairs left right (paired ++ [p]) ps = .ok rest ∧ new = p :: rest := by
  rw [joinPairs, if_neg hp]
  by_cases hany : (paired.any fun q => q.1 == p.1 || q.2 == p.2) = true
  · simp [hany]
  · rw [if_neg hany]
    cases joinPairs left right (paired ++ [p]) ps with
    | error m => simp
    | ok rest => simp [hany, eq_comm]

/-- Nothing is added but what was to be added. -/
theorem mem_of_joinPairs (hok : joinPairs left right paired ps = .ok new) :
    ∀ p ∈ new, p ∈ ps := by
  induction ps generalizing paired new with
  | nil =>
      obtain rfl : new = [] := (Except.ok.inj hok).symm
      exact fun p hp => hp
  | cons p ps ih =>
      by_cases hp : p ∈ paired
      · rw [joinPairs_cons_of_mem hp] at hok
        exact fun q hq => List.mem_cons_of_mem p (ih hok q hq)
      · obtain ⟨-, rest, hrest, rfl⟩ := (joinPairs_cons_eq_ok_iff hp).1 hok
        exact List.cons_subset_cons p (ih hrest)

/-- What is added to a matching leaves it one, and all that was to be added is in it. -/
theorem matched_of_joinPairs (h : Matched paired)
    (hok : joinPairs left right paired ps = .ok new) :
    Matched (paired ++ new) ∧ ∀ p ∈ ps, p ∈ paired ++ new := by
  induction ps generalizing paired new with
  | nil =>
      obtain rfl : new = [] := (Except.ok.inj hok).symm
      refine ⟨?_, by simp⟩
      rwa [List.append_nil]
  | cons p ps ih =>
      by_cases hp : p ∈ paired
      · rw [joinPairs_cons_of_mem hp] at hok
        obtain ⟨hmatched, hall⟩ := ih h hok
        exact ⟨hmatched, List.forall_mem_cons.2 ⟨List.mem_append_left new hp, hall⟩⟩
      · obtain ⟨hfree, rest, hrest, rfl⟩ := (joinPairs_cons_eq_ok_iff hp).1 hok
        obtain ⟨hmatched, hall⟩ := ih (h.snoc hfree) hrest
        rw [List.append_assoc, List.singleton_append] at hmatched hall
        exact ⟨hmatched, List.forall_mem_cons.2
          ⟨List.mem_append_right paired List.mem_cons_self, hall⟩⟩

/-- Pairs of one injective function fit to each other. -/
theorem exists_joinPairs (left right : Table) {s : Set Nat} (hf : Set.InjOn f s)
    (hpairs : ∀ p ∈ paired ++ ps, p.1 ∈ s ∧ p.2 = f p.1) :
    ∃ new, joinPairs left right paired ps = .ok new := by
  induction ps generalizing paired with
  | nil => exact ⟨[], rfl⟩
  | cons p ps ih =>
      have hmem : ∀ q ∈ paired, q ∈ paired ++ p :: ps := fun q hq => List.mem_append_left _ hq
      have hpmem : p ∈ paired ++ p :: ps := List.mem_append_right _ List.mem_cons_self
      by_cases hp : p ∈ paired
      · rw [joinPairs_cons_of_mem hp]
        refine ih fun q hq => hpairs q ?_
        rcases List.mem_append.1 hq with hq | hq
        · exact hmem q hq
        · exact List.mem_append_right _ (List.mem_cons_of_mem p hq)
      · have hmore : ∀ q ∈ paired ++ [p] ++ ps, q.1 ∈ s ∧ q.2 = f q.1 := by
          rw [List.append_assoc]
          exact hpairs
        obtain ⟨rest, hrest⟩ := ih hmore
        refine ⟨p :: rest, (joinPairs_cons_eq_ok_iff hp).2 ⟨fun hany => ?_, rest, hrest, rfl⟩⟩
        obtain ⟨q, hq, heq⟩ := List.any_eq_true.1 hany
        rw [Bool.or_eq_true, beq_iff_eq, beq_iff_eq] at heq
        obtain ⟨hps, hpf⟩ := hpairs p hpmem
        obtain ⟨hqs, hqf⟩ := hpairs q (hmem q hq)
        have hfst : q.1 = p.1 := by
          rcases heq with heq | heq
          · exact heq
          · rw [hqf, hpf] at heq
            exact hf hqs hps heq
        have hsnd : q.2 = p.2 := by rw [hqf, hpf, hfst]
        exact hp (Prod.ext hfst hsnd ▸ hq)

/-! ## The run -/

/-- What holds of the pairs, whatever has been taken from the queue. -/
structure Growing (left right : Table) (done queue : List (Nat × Nat)) : Prop where
  matched : Matched (done ++ queue)
  lt : ∀ p ∈ done ++ queue, p.1 < left.size ∧ p.2 < right.size
  accepting : ∀ p ∈ done, left.accepting p.1 = right.accepting p.2
  /-- What is done has been followed. -/
  followed : ∀ p ∈ done, ∀ q ∈ (left.next p.1).zip (right.next p.2), q ∈ done ++ queue

theorem growing_start (hl : left.WellFormed) (hr : right.WellFormed) :
    Growing left right [] [(left.start, right.start)] where
  matched := ⟨by simp, by simp⟩
  lt := by simpa using ⟨hl.start_lt, hr.start_lt⟩
  accepting := by simp
  followed := by simp

namespace Growing

/-- There are no more pairs than states. -/
theorem length_le (h : Growing left right done queue) :
    (done ++ queue).length ≤ left.size := by
  have hsub : (done ++ queue).map Prod.fst ⊆ List.range left.size := by
    intro i hi
    obtain ⟨p, hp, rfl⟩ := List.mem_map.1 hi
    exact List.mem_range.2 (h.lt p hp).1
  have hle := (h.matched.left.subperm hsub).length_le
  rwa [List.length_map, List.length_range] at hle

/-- Following a pair keeps the invariant. -/
theorem follow (hl : left.WellFormed) (hr : right.WellFormed) {p : Nat × Nat}
    (h : Growing left right done (p :: queue)) (haccepting : left.accepting p.1 =
      right.accepting p.2)
    (hok : joinPairs left right (done ++ p :: queue) ((left.next p.1).zip (right.next p.2)) =
      .ok new) : Growing left right (done ++ [p]) (queue ++ new) := by
  obtain ⟨hmatched, hall⟩ := matched_of_joinPairs h.matched hok
  have happend : done ++ [p] ++ (queue ++ new) = done ++ p :: queue ++ new := by simp
  have hpmem : p ∈ done ++ p :: queue := List.mem_append_right _ List.mem_cons_self
  constructor
  case matched => rwa [happend]
  case lt =>
    rw [happend]
    intro q hq
    rcases List.mem_append.1 hq with hq | hq
    · exact h.lt q hq
    · obtain ⟨hq1, hq2⟩ := List.of_mem_zip (mem_of_joinPairs hok q hq)
      obtain ⟨row, hrow, hnext⟩ := left.exists_row_of_lt p.1 (h.lt p hpmem).1
      obtain ⟨row', hrow', hnext'⟩ := right.exists_row_of_lt p.2 (h.lt p hpmem).2
      exact ⟨hl.next_lt row hrow _ (hnext ▸ hq1), hr.next_lt row' hrow' _ (hnext' ▸ hq2)⟩
  case accepting =>
    intro q hq
    rcases List.mem_append.1 hq with hq | hq
    · exact h.accepting q hq
    · rwa [List.mem_singleton.1 hq]
  case followed =>
    rw [happend]
    intro q hq r hr
    rcases List.mem_append.1 hq with hq | hq
    · exact List.mem_append_left new (h.followed q hq r hr)
    · rw [List.mem_singleton.1 hq] at hr
      exact hall r hr

end Growing

theorem growPairing_cons_eq_ok_iff {n : Nat} {p : Nat × Nat} :
    growPairing left right (n + 1) done (p :: queue) = .ok pairs ↔
      left.accepting p.1 = right.accepting p.2 ∧ ∃ new,
        joinPairs left right (done ++ p :: queue) ((left.next p.1).zip (right.next p.2)) =
          .ok new ∧ growPairing left right n (done ++ [p]) (queue ++ new) = .ok pairs := by
  rw [growPairing]
  by_cases h : left.accepting p.1 = right.accepting p.2
  · rw [if_pos h]
    cases joinPairs left right (done ++ p :: queue) ((left.next p.1).zip (right.next p.2)) with
    | error m => simp
    | ok new => simp [h]
  · simp [h]

/-- When the pairing ends, all pairs have been followed. -/
theorem growing_of_growPairing (hl : left.WellFormed) (hr : right.WellFormed) {n : Nat}
    (h : Growing left right done queue) (hn : left.size ≤ n + done.length)
    (hok : growPairing left right n done queue = .ok pairs) :
    Growing left right pairs [] ∧ ∀ p ∈ done ++ queue, p ∈ pairs := by
  induction n generalizing done queue with
  | zero =>
      have hle := h.length_le
      rw [List.length_append] at hle
      obtain rfl : queue = [] := List.eq_nil_of_length_eq_zero (by omega)
      obtain rfl : pairs = done ++ [] := (Except.ok.inj hok).symm
      rw [List.append_nil]
      exact ⟨h, fun p hp => hp⟩
  | succ n ih =>
      cases queue with
      | nil =>
          obtain rfl : pairs = done := (Except.ok.inj hok).symm
          rw [List.append_nil]
          exact ⟨h, fun p hp => hp⟩
      | cons p queue =>
          obtain ⟨haccepting, new, hnew, hrest⟩ := growPairing_cons_eq_ok_iff.1 hok
          have hn' : left.size ≤ n + (done ++ [p]).length := by
            rw [List.length_append, List.length_singleton]
            omega
          obtain ⟨hgrown, hmem⟩ := ih (h.follow hl hr haccepting hnew) hn' hrest
          refine ⟨hgrown, fun q hq => hmem q ?_⟩
          have happend : done ++ [p] ++ (queue ++ new) = done ++ p :: queue ++ new := by simp
          rw [happend]
          exact List.mem_append_left new hq

/-! ## Correspondence -/

section Closed

variable (hl : left.WellFormed) (hr : right.WellFormed)
  (halphabet : left.alphabet = right.alphabet) (h : Growing left right pairs [])

include hl hr halphabet h

/-- A symbol leads on both sides or on none, and to partners if it does. -/
theorem Growing.step {p : Nat × Nat} (hp : p ∈ pairs) (c : Char) :
    (left.step? p.1 c = none ∧ right.step? p.2 c = none) ∨
      ∃ q ∈ pairs, left.step? p.1 c = some q.1 ∧ right.step? p.2 c = some q.2 := by
  have hpairs : pairs ++ [] = pairs := List.append_nil pairs
  obtain ⟨hlt, hlt'⟩ := h.lt p (hpairs.symm ▸ hp)
  have hleft := hl.step?_isSome_iff p.1 hlt c
  have hright := hr.step?_isSome_iff p.2 hlt' c
  rw [← halphabet, ← hleft] at hright
  cases hc : left.step? p.1 c with
  | none =>
      rw [hc] at hright
      exact .inl ⟨rfl, by simpa using hright⟩
  | some i =>
      rw [hc] at hright
      obtain ⟨j, hj⟩ := Option.isSome_iff_exists.1 (hright.2 rfl)
      refine .inr ⟨(i, j), ?_, rfl, hj⟩
      rw [← hpairs]
      exact h.followed p hp _ ((mem_zip_next_iff hl hr halphabet hlt hlt' _).2 ⟨c, hc, hj⟩)

theorem Growing.run {p : Nat × Nat} (hp : p ∈ pairs) (w : List Char) :
    (left.run? p.1 w = none ∧ right.run? p.2 w = none) ∨
      ∃ q ∈ pairs, left.run? p.1 w = some q.1 ∧ right.run? p.2 w = some q.2 := by
  induction w generalizing p with
  | nil => exact .inr ⟨p, hp, rfl, rfl⟩
  | cons c w ih =>
      rw [run?_cons, run?_cons]
      rcases h.step hl hr halphabet hp c with ⟨hc, hc'⟩ | ⟨q, hq, hc, hc'⟩
      · rw [hc, hc']
        exact .inl ⟨rfl, rfl⟩
      · rw [hc, hc']
        exact ih hq

/-- Pairs that have all been followed pair off what words lead to. -/
theorem Growing.corresponds (hstart : (left.start, right.start) ∈ pairs) :
    ∃ f, left.Corresponds right f := by
  have hmatched : Matched pairs := List.append_nil pairs ▸ h.matched
  obtain ⟨f, hf⟩ := hmatched.exists_partner
  have hrun := h.run hl hr halphabet hstart
  have hpaired : ∀ i, left.LeadsTo i → (i, f i) ∈ pairs := by
    rintro i ⟨w, hw⟩
    rcases hrun w with ⟨hnone, -⟩ | ⟨q, hq, hqw, -⟩
    · cases hnone.symm.trans hw
    · obtain rfl : q.1 = i := Option.some.inj (hqw.symm.trans hw)
      rw [hf q hq]
      exact hq
  refine ⟨f, ⟨?mapsTo, ?injOn, ?surjOn⟩, hf _ hstart, ?accepting, ?step⟩
  case mapsTo =>
    rintro i ⟨w, hw⟩
    rcases hrun w with ⟨hnone, -⟩ | ⟨q, hq, hqw, hqw'⟩
    · cases hnone.symm.trans hw
    · obtain rfl : q.1 = i := Option.some.inj (hqw.symm.trans hw)
      exact ⟨w, hf q hq ▸ hqw'⟩
  case injOn =>
    intro i hi j hj heq
    exact congrArg Prod.fst (hmatched.eq_of_snd (hpaired i hi) (hpaired j hj) heq)
  case surjOn =>
    rintro j ⟨w, hw⟩
    rcases hrun w with ⟨-, hnone⟩ | ⟨q, hq, hqw, hqw'⟩
    · cases hnone.symm.trans hw
    · exact ⟨q.1, ⟨w, hqw⟩, (hf q hq).trans (Option.some.inj (hqw'.symm.trans hw))⟩
  case accepting => exact fun i hi => (h.accepting _ (hpaired i hi)).symm
  case step =>
    intro i hi c
    rcases h.step hl hr halphabet (hpaired i hi) c with ⟨hc, hc'⟩ | ⟨q, hq, hc, hc'⟩
    · rw [hc, hc', Option.map_none]
    · rw [hc, hc', Option.map_some, hf q hq]

end Closed

/-- States that correspond are never refused. -/
theorem exists_growPairing (hl : left.WellFormed) (hr : right.WellFormed)
    (halphabet : left.alphabet = right.alphabet) (h : left.Corresponds right f) (n : Nat)
    (hpairs : ∀ p ∈ done ++ queue, left.LeadsTo p.1 ∧ p.2 = f p.1) :
    ∃ pairs, growPairing left right n done queue = .ok pairs := by
  induction n generalizing done queue with
  | zero => exact ⟨_, rfl⟩
  | succ n ih =>
      cases queue with
      | nil => exact ⟨_, rfl⟩
      | cons p queue =>
          obtain ⟨hreached, hpartner⟩ := hpairs p (List.mem_append_right _ List.mem_cons_self)
          have hreached' : right.LeadsTo p.2 := hpartner ▸ h.bijOn.mapsTo hreached
          have hnext : ∀ q ∈ (left.next p.1).zip (right.next p.2),
              left.LeadsTo q.1 ∧ q.2 = f q.1 := by
            intro q hq
            obtain ⟨c, hc, hc'⟩ := (mem_zip_next_iff hl hr halphabet
              (hl.lt_of_leadsTo hreached) (hr.lt_of_leadsTo hreached') q).1 hq
            refine ⟨hreached.step hc, ?_⟩
            rw [hpartner, h.step p.1 hreached c, hc] at hc'
            exact (Option.some.inj hc').symm
          have hjoined : ∀ q ∈ done ++ p :: queue ++ (left.next p.1).zip (right.next p.2),
              left.LeadsTo q.1 ∧ q.2 = f q.1 := fun q hq =>
            (List.mem_append.1 hq).elim (hpairs q) (hnext q)
          obtain ⟨new, hnew⟩ := exists_joinPairs left right h.bijOn.injOn hjoined
          have hmore : ∀ q ∈ done ++ [p] ++ (queue ++ new), left.LeadsTo q.1 ∧ q.2 = f q.1 := by
            have happend : done ++ [p] ++ (queue ++ new) = done ++ p :: queue ++ new := by simp
            rw [happend]
            intro q hq
            refine hjoined q ((List.mem_append.1 hq).elim (List.mem_append_left _) fun hq => ?_)
            exact List.mem_append_right _ (mem_of_joinPairs hnew q hq)
          obtain ⟨pairs, hrest⟩ := ih hmore
          refine ⟨pairs, growPairing_cons_eq_ok_iff.2 ⟨?_, new, hnew, hrest⟩⟩
          rw [hpartner]
          exact (h.accepting p.1 hreached).symm

/-- The check for isomorphism succeeds on corresponding tables of one size, and on no others. -/
theorem isomorphic_iff (hl : left.WellFormed) (hr : right.WellFormed) :
    left.isomorphic right = true ↔ left.size = right.size ∧ left.alphabet = right.alphabet ∧
      ∃ f, left.Corresponds right f := by
  rw [isomorphic, Bool.and_eq_true, comparable, Bool.and_eq_true, beq_iff_eq, decide_eq_true_iff,
    and_assoc]
  refine and_congr_right fun _ => and_congr_right fun halphabet => ?_
  constructor
  · intro hpairing
    cases hok : left.pairing right with
    | error m => simp [hok, Except.toBool] at hpairing
    | ok pairs =>
        obtain ⟨hgrown, hmem⟩ := growing_of_growPairing hl hr (growing_start hl hr)
          (Nat.le_add_right _ _) hok
        exact hgrown.corresponds hl hr halphabet (hmem _ List.mem_cons_self)
  · rintro ⟨f, h⟩
    have hstart : ∀ p ∈ [] ++ [(left.start, right.start)], left.LeadsTo p.1 ∧ p.2 = f p.1 := by
      intro p hp
      obtain rfl := List.mem_singleton.1 hp
      exact ⟨left.leadsTo_start, h.start.symm⟩
    obtain ⟨pairs, hok⟩ := exists_growPairing hl hr halphabet h left.size hstart
    rw [pairing, hok]
    rfl

end FiniteState.Table
