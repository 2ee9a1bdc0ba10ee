import Mathlib.Data.List.ProdSigma
import FiniteState.Proofs.Machine
import FiniteState.Proofs.Table.Conversion
import FiniteState.Table.Product

/-!
# Products of tables

The product runs two tables over the symbols of both. A table that lacks some of them is
completed first: what it cannot read leads it to a sink, which it never leaves and where it
does not accept. Completing a table therefore changes no answer on words that it accepts, and
`verdict_product` says that the product gives the answers that the two tables give, put
together, on every word over the symbols of both.
-/

namespace FiniteState

namespace Table

/-- What a well-formed table says of a word, if it is known which words it accepts. -/
theorem WellFormed.verdict_eq_ite {t : Table} (ht : t.WellFormed) {w : List Char} {answer : Bool}
    (h : t.verdict w = .accept ↔ (∀ c ∈ w, c ∈ t.alphabet) ∧ answer = true) :
    t.verdict w = if w.all (· ∈ t.alphabet) then (if answer then .accept else .reject)
      else .crash := by
  have hcrash := ht.verdictFrom_eq_crash_iff ht.start_lt w
  rw [← verdict_eq_verdictFrom] at hcrash
  have hall : w.all (· ∈ t.alphabet) = true ↔ ∀ c ∈ w, c ∈ t.alphabet := by
    simp only [List.all_eq_true, decide_eq_true_iff]
  by_cases hw : w.all (· ∈ t.alphabet) = true
  · have hread : t.verdict w ≠ .crash := fun hc => by
      obtain ⟨c, hc, hnot⟩ := hcrash.1 hc
      exact hnot (hall.1 hw c hc)
    rw [if_pos hw]
    cases answer with
    | true => exact h.2 ⟨hall.1 hw, rfl⟩
    | false =>
        have hnot : t.verdict w ≠ .accept := fun ha => Bool.false_ne_true (h.1 ha).2
        cases hverdict : t.verdict w with
        | accept => exact absurd hverdict hnot
        | reject => rfl
        | crash => exact absurd hverdict hread
  · rw [if_neg hw, hcrash]
    rw [hall] at hw
    simpa using hw

/-! ## Completion -/

section Completion

variable (t : Table) (S : Alphabet)

/-- The sink, if symbols are missing. -/
def sinkRows : List Row :=
  if (S.without t.alphabet).isEmpty then []
  else [⟨Text.primed t.names sinkName, false, S.symbols.map fun _ => t.size⟩]

theorem completeOver_eq : t.completeOver S =
    ⟨S, t.start, (t.rows.zipIdx.map fun r => t.widenRow S t.size r.2 r.1) ++ t.sinkRows S⟩ := by
  rw [completeOver, sinkRows]
  by_cases h : (S.without t.alphabet).isEmpty = true
  · simp [h]
  · simp [h]

theorem alphabet_completeOver : (t.completeOver S).alphabet = S := by
  rw [completeOver_eq]

theorem start_completeOver : (t.completeOver S).start = t.start := by
  rw [completeOver_eq]

theorem size_completeOver : (t.completeOver S).size = t.size + (t.sinkRows S).length := by
  rw [completeOver_eq, size, List.length_append, List.length_map, List.length_zipIdx]
  rfl

theorem getElem?_rows_completeOver {i : Nat} {row : Row} (h : t.rows[i]? = some row) :
    (t.completeOver S).rows[i]? = some (t.widenRow S t.size i row) := by
  have hlt : i < t.rows.length := (List.getElem?_eq_some_iff.1 h).1
  rw [completeOver_eq, List.getElem?_append_left (by simpa using hlt), List.getElem?_map,
    List.getElem?_zipIdx, h]
  simp

theorem getElem?_rows_completeOver_size :
    (t.completeOver S).rows[t.size]? = (t.sinkRows S)[0]? := by
  rw [completeOver_eq, List.getElem?_append_right (by simp [size])]
  simp [size]

theorem mem_rows_completeOver {row : Row} (h : row ∈ (t.completeOver S).rows) :
    (∃ i old, t.rows[i]? = some old ∧ row = t.widenRow S t.size i old) ∨ row ∈ t.sinkRows S := by
  rw [completeOver_eq, List.mem_append, List.mem_map] at h
  rcases h with ⟨⟨old, i⟩, hmem, rfl⟩ | h
  · exact .inl ⟨i, old, List.mem_zipIdx_iff_getElem?.1 hmem, rfl⟩
  · exact .inr h

theorem names_completeOver :
    (t.completeOver S).names = t.names ++ (t.sinkRows S).map Row.name := by
  rw [completeOver_eq, names, List.map_append, List.map_map]
  congr 1
  have hname : (Row.name ∘ fun r : Row × Nat => t.widenRow S t.size r.2 r.1) =
      Row.name ∘ Prod.fst := rfl
  rw [hname, ← List.map_map, List.zipIdx_map_fst]
  rfl

variable {t S}

theorem mem_sinkRows {row : Row} (h : row ∈ t.sinkRows S) : (∃ c ∈ S, ¬ c ∈ t.alphabet) ∧
    row = ⟨Text.primed t.names sinkName, false, S.symbols.map fun _ => t.size⟩ := by
  rw [sinkRows] at h
  by_cases hmissing : (S.without t.alphabet).isEmpty = true
  · rw [if_pos hmissing] at h
    cases h
  · rw [if_neg hmissing] at h
    rw [Automaton.without_isEmpty_iff] at hmissing
    exact ⟨by simpa using hmissing, List.mem_singleton.1 h⟩

theorem length_sinkRows_pos {c : Char} (hc : c ∈ S) (hnot : ¬ c ∈ t.alphabet) :
    0 < (t.sinkRows S).length := by
  have hmissing : ¬ (S.without t.alphabet).isEmpty = true := by
    rw [Automaton.without_isEmpty_iff]
    exact fun h => hnot (h c hc)
  rw [sinkRows, if_neg hmissing]
  exact Nat.one_pos

/-- A completed table is well formed. -/
theorem WellFormed.completeOver (ht : t.WellFormed) (hS : ∀ c ∈ t.alphabet, c ∈ S) :
    (t.completeOver S).WellFormed where
  symbols_ne_nil := by
    rw [alphabet_completeOver]
    obtain ⟨c, hc⟩ := List.exists_mem_of_ne_nil _ ht.symbols_ne_nil
    exact List.ne_nil_of_mem (hS c hc)
  names_nodup := by
    rw [names_completeOver, sinkRows]
    split
    · rw [List.map_nil, List.append_nil]
      exact ht.names_nodup
    · refine List.nodup_append.2 ⟨ht.names_nodup, List.nodup_singleton _, ?_⟩
      intro name hname sink hsink heq
      rw [List.map_singleton, List.mem_singleton] at hsink
      rw [heq, hsink] at hname
      exact Text.primed_not_mem t.names sinkName hname
  length_next := by
    intro row hrow
    rw [alphabet_completeOver]
    rcases mem_rows_completeOver t S hrow with ⟨i, old, -, rfl⟩ | hsink
    · exact List.length_map _
    · rw [(mem_sinkRows hsink).2]
      exact List.length_map _
  next_lt := by
    intro row hrow k hk
    rw [size_completeOver]
    rcases mem_rows_completeOver t S hrow with ⟨i, old, hold, rfl⟩ | hsink
    · obtain ⟨c, hc, rfl⟩ := List.mem_map.1 hk
      have hi : i < t.size := (List.getElem?_eq_some_iff.1 hold).1
      cases hstep : t.step? i c with
      | some j =>
          rw [Option.getD_some]
          exact Nat.lt_add_right _ (ht.lt_of_step? hi hstep)
      | none =>
          have hnot : ¬ c ∈ t.alphabet := by
            rw [← ht.step?_isSome_iff i hi c, hstep]
            exact Bool.false_ne_true
          rw [Option.getD_none]
          exact Nat.lt_add_of_pos_right (length_sinkRows_pos hc hnot)
    · rw [(mem_sinkRows hsink).2] at hk
      obtain ⟨c, -, rfl⟩ := List.mem_map.1 hk
      exact Nat.lt_add_of_pos_right (List.length_pos_of_mem hsink)
  start_lt := by
    rw [start_completeOver, size_completeOver]
    exact Nat.lt_add_right _ ht.start_lt

theorem step?_completeOver {i : Nat} (hi : i < t.size) (c : Char) :
    (t.completeOver S).step? i c = if c ∈ S then some ((t.step? i c).getD t.size) else none := by
  obtain ⟨row, hrow⟩ := exists_row hi
  have hnext := next_of_row (getElem?_rows_completeOver t S hrow)
  have hstep := step?_of_next (t := t.completeOver S) (f := fun c => (t.step? i c).getD t.size)
    (by rw [hnext, alphabet_completeOver]; rfl) c
  rwa [alphabet_completeOver] at hstep

theorem accepting_completeOver {i : Nat} (hi : i < t.size) :
    (t.completeOver S).accepting i = t.accepting i := by
  obtain ⟨row, hrow⟩ := exists_row hi
  rw [accepting_of_row hrow, accepting_of_row (getElem?_rows_completeOver t S hrow)]
  rfl

/-- The sink is not left. -/
theorem eq_size_of_step? {c : Char} {next : Nat}
    (h : (t.completeOver S).step? t.size c = some next) : next = t.size := by
  have hrow := getElem?_rows_completeOver_size t S
  cases hsink : (t.sinkRows S)[0]? with
  | none =>
      rw [hsink] at hrow
      have hnext : (t.completeOver S).next t.size = [] := by rw [Table.next, hrow]
      rw [step?, hnext, List.zip_nil_right] at h
      cases h
  | some row =>
      rw [hsink] at hrow
      have hnext := next_of_row hrow
      rw [(mem_sinkRows (List.mem_of_getElem? hsink)).2] at hnext
      have hstep := step?_of_next (t := t.completeOver S) (f := fun _ => t.size)
        (by rw [hnext, alphabet_completeOver]) c
      rw [hstep] at h
      by_cases hc : c ∈ (t.completeOver S).alphabet
      · rw [if_pos hc, Option.some.injEq] at h
        exact h.symm
      · rw [if_neg hc] at h
        cases h

theorem accepting_sink : (t.completeOver S).accepting t.size = false := by
  have hrow := getElem?_rows_completeOver_size t S
  cases hsink : (t.sinkRows S)[0]? with
  | none => rw [accepting, hrow, hsink]
  | some row =>
      rw [hsink] at hrow
      rw [accepting_of_row hrow, (mem_sinkRows (List.mem_of_getElem? hsink)).2]

theorem eq_size_of_run? {w : List Char} {last : Nat}
    (h : (t.completeOver S).run? t.size w = some last) : last = t.size := by
  induction w with
  | nil =>
      rw [run?_nil, Option.some.injEq] at h
      exact h.symm
  | cons c w ih =>
      rw [run?_cons] at h
      obtain ⟨next, hnext, hrest⟩ := Option.bind_eq_some_iff.1 h
      obtain rfl := eq_size_of_step? hnext
      exact ih hrest

/-- No word is accepted from the sink on. -/
theorem verdictFrom_sink_ne_accept (w : List Char) :
    (t.completeOver S).verdictFrom t.size w ≠ .accept := by
  rw [Ne, verdictFrom_eq_accept_iff]
  rintro ⟨last, hrun, haccepting⟩
  rw [eq_size_of_run? hrun, accepting_sink] at haccepting
  cases haccepting

/-- A completed table ends where the table ends, and in the sink if the table gets stuck. -/
theorem run?_completeOver (ht : t.WellFormed) (hS : ∀ c ∈ t.alphabet, c ∈ S) {i : Nat}
    (hi : i < t.size) {w : List Char} (hw : ∀ c ∈ w, c ∈ S) :
    (t.completeOver S).run? i w = some ((t.run? i w).getD t.size) := by
  induction w generalizing i with
  | nil => rfl
  | cons c w ih =>
      have hcomplete := ht.completeOver hS
      obtain ⟨hc, hw⟩ := List.forall_mem_cons.1 hw
      have hstep := step?_completeOver (S := S) hi c
      rw [if_pos hc] at hstep
      rw [run?_cons, run?_cons, hstep, Option.bind_some]
      cases hold : t.step? i c with
      | some j => exact ih (ht.lt_of_step? hi hold) hw
      | none =>
          rw [hold, Option.getD_none] at hstep
          have hsink : t.size < (t.completeOver S).size := by
            refine hcomplete.lt_of_step? ?_ hstep
            rw [size_completeOver]
            exact Nat.lt_add_right _ hi
          have hread : ((t.completeOver S).run? t.size w).isSome = true := by
            rw [hcomplete.run?_isSome_iff _ hsink, alphabet_completeOver]
            exact hw
          obtain ⟨last, hlast⟩ := Option.isSome_iff_exists.1 hread
          rw [Option.getD_none, Option.bind_none, Option.getD_none, hlast, eq_size_of_run? hlast]

/-- The sink is a state of the completed table if the table can get stuck. -/
theorem getD_run?_lt (ht : t.WellFormed) (hS : ∀ c ∈ t.alphabet, c ∈ S) {w : List Char}
    (hw : ∀ c ∈ w, c ∈ S) : (t.run? t.start w).getD t.size < (t.completeOver S).size := by
  refine (ht.completeOver hS).lt_of_run? ?_ (run?_completeOver ht hS ht.start_lt hw)
  rw [size_completeOver]
  exact Nat.lt_add_right _ ht.start_lt

/-- A completed table accepts the words that the table accepts. -/
theorem verdictFrom_completeOver_eq_accept_iff (ht : t.WellFormed) {i : Nat} (hi : i < t.size)
    {w : List Char} (hw : ∀ c ∈ w, c ∈ S) :
    (t.completeOver S).verdictFrom i w = .accept ↔ t.verdictFrom i w = .accept := by
  induction w generalizing i with
  | nil => rw [verdictFrom_nil, verdictFrom_nil, accepting_completeOver hi]
  | cons c w ih =>
      obtain ⟨hc, hw⟩ := List.forall_mem_cons.1 hw
      have hstep := step?_completeOver (S := S) hi c
      rw [if_pos hc] at hstep
      rw [verdictFrom_cons _ hstep]
      cases hold : t.step? i c with
      | some j =>
          rw [Option.getD_some, verdictFrom_cons t hold]
          exact ih (ht.lt_of_step? hi hold) hw
      | none =>
          have hcrash : t.verdictFrom i (c :: w) = .crash := by
            rw [verdictFrom, run?_cons, hold]
            rfl
          rw [Option.getD_none, hcrash]
          exact iff_of_false (verdictFrom_sink_ne_accept w) (by decide)

theorem verdict_completeOver_eq_accept_iff (ht : t.WellFormed) {w : List Char}
    (hw : ∀ c ∈ w, c ∈ S) : (t.completeOver S).verdict w = .accept ↔ t.verdict w = .accept := by
  rw [verdict_eq_verdictFrom, verdict_eq_verdictFrom, start_completeOver]
  exact verdictFrom_completeOver_eq_accept_iff ht ht.start_lt hw

end Completion

/-! ## Pairs of states -/

section Pairs

variable {left right : Table} {accept : Bool → Bool → Bool}

/-- The machine of two tables runs both. -/
theorem runFrom_pairMachine {p q p' q' : Nat} {w : List Char} (hp : left.run? p w = some p')
    (hq : right.run? q w = some q') :
    (pairMachine left right accept).runFrom (p, q) w = (p', q') := by
  induction w generalizing p q with
  | nil =>
      rw [run?_nil, Option.some.injEq] at hp hq
      rw [Machine.runFrom_nil, hp, hq]
  | cons c w ih =>
      rw [run?_cons] at hp hq
      obtain ⟨p₁, hp₁, hp⟩ := Option.bind_eq_some_iff.1 hp
      obtain ⟨q₁, hq₁, hq⟩ := Option.bind_eq_some_iff.1 hq
      have hstep : (pairMachine left right accept).step (p, q) c = (p₁, q₁) := by
        simp only [pairMachine, stepOrStay, hp₁, hq₁, Option.getD_some]
      rw [Machine.runFrom_cons, hstep, ih hp hq]

theorem verdict_of_run? {t : Table} {w : List Char} {last : Nat}
    (h : t.run? t.start w = some last) : decide (t.verdict w = .accept) = t.accepting last := by
  rw [verdict, h]
  cases hlast : t.accepting last with
  | true => simp [hlast]
  | false => simp [hlast]

/-- The machine of two tables accepts as both tables answer. -/
theorem accepts_pairMachine {S : Alphabet} (hl : left.WellFormed) (hr : right.WellFormed)
    (hlS : left.alphabet = S) (hrS : right.alphabet = S) {w : List Char}
    (hw : ∀ c ∈ w, c ∈ S) : (pairMachine left right accept).accepts w =
      accept (decide (left.verdict w = .accept)) (decide (right.verdict w = .accept)) := by
  obtain ⟨p, hp⟩ := (hl.exists_run?_iff w).2 (hlS ▸ hw)
  obtain ⟨q, hq⟩ := (hr.exists_run?_iff w).2 (hrS ▸ hw)
  have hrun : (pairMachine left right accept).run w = (p, q) := runFrom_pairMachine hp hq
  rw [Machine.accepts, hrun, verdict_of_run? hp, verdict_of_run? hq]
  rfl

theorem WellFormed.stepOrStay_lt {t : Table} (ht : t.WellFormed) {i : Nat} (hi : i < t.size)
    (c : Char) : t.stepOrStay i c < t.size := by
  rw [stepOrStay]
  cases hstep : t.step? i c with
  | none => exact hi
  | some j => exact ht.lt_of_step? hi hstep

/-- There are only so many pairs of states. -/
theorem within_pairMachine (accept : Bool → Bool → Bool) (hl : left.WellFormed)
    (hr : right.WellFormed) (S : Alphabet) :
    (pairMachine left right accept).Within S (left.size * right.size) := by
  have hmem : ∀ p q, (p, q) ∈ List.range left.size ×ˢ List.range right.size ↔
      p < left.size ∧ q < right.size := by
    intro p q
    rw [List.mem_product, List.mem_range, List.mem_range]
  refine ⟨List.range left.size ×ˢ List.range right.size, ?_, ?_, ?_⟩
  · exact (hmem _ _).2 ⟨hl.start_lt, hr.start_lt⟩
  · rintro ⟨p, q⟩ hpq c -
    obtain ⟨hp, hq⟩ := (hmem p q).1 hpq
    exact (hmem _ _).2 ⟨hl.stepOrStay_lt hp c, hr.stepOrStay_lt hq c⟩
  · rw [List.length_product, List.length_range, List.length_range]

end Pairs

/-! ## The product -/

section Product

variable {left right : Table} (accept : Bool → Bool → Bool)

theorem WellFormed.completeLeft (hl : left.WellFormed) :
    (left.completeOver (left.alphabet.union right.alphabet)).WellFormed :=
  hl.completeOver fun c hc => (Alphabet.mem_union _ _ c).2 (.inr hc)

theorem WellFormed.completeRight (hr : right.WellFormed) :
    (right.completeOver (left.alphabet.union right.alphabet)).WellFormed :=
  hr.completeOver fun c hc => (Alphabet.mem_union _ _ c).2 (.inl hc)

/-- The machine whose states are those of the product. -/
def productMachine (left right : Table) (accept : Bool → Bool → Bool) : Machine (Nat × Nat) :=
  pairMachine (left.completeOver (left.alphabet.union right.alphabet))
    (right.completeOver (left.alphabet.union right.alphabet)) accept

theorem alphabet_product (left right : Table) (accept : Bool → Bool → Bool) :
    (left.product right accept).alphabet = left.alphabet.union right.alphabet := rfl

theorem within_productMachine (hl : left.WellFormed) (hr : right.WellFormed) :
    (left.productMachine right accept).Within (left.alphabet.union right.alphabet)
      ((left.completeOver (left.alphabet.union right.alphabet)).size *
        (right.completeOver (left.alphabet.union right.alphabet)).size) :=
  within_pairMachine accept hl.completeLeft hr.completeRight _

theorem WellFormed.symbols_union_ne_nil (hl : left.WellFormed) (S : Alphabet) :
    (left.alphabet.union S).symbols ≠ [] := by
  obtain ⟨c, hc⟩ := List.exists_mem_of_ne_nil _ hl.symbols_ne_nil
  exact List.ne_nil_of_mem ((Alphabet.mem_union _ S c).2 (.inr hc))

theorem WellFormed.product (hl : left.WellFormed) (hr : right.WellFormed) :
    (left.product right accept).WellFormed :=
  Machine.wellFormed_table (within_productMachine accept hl hr) (hl.symbols_union_ne_nil _)

/-- The product of valid tables is a valid table over the symbols of both. -/
theorem Valid.product (hl : left.Valid) (hr : right.Valid) : (left.product right accept).Valid where
  toWellFormed := hl.toWellFormed.product accept hr.toWellFormed
  epsilon_not_mem := by
    intro h
    rcases (Alphabet.mem_union _ _ _).1 h with h | h
    · exact hr.epsilon_not_mem h
    · exact hl.epsilon_not_mem h

/-- On words over the symbols of both tables the product gives their answers put together, and it
crashes on all other words. -/
theorem verdict_product (hl : left.Valid) (hr : right.Valid) (w : List Char) :
    (left.product right accept).verdict w =
      if w.all (· ∈ left.alphabet.union right.alphabet) then
        if accept (decide (left.verdict w = .accept)) (decide (right.verdict w = .accept))
        then .accept else .reject
      else .crash := by
  have hproduct := hl.product accept hr
  have hwithin := within_productMachine accept hl.toWellFormed hr.toWellFormed
  refine hproduct.verdict_eq_ite ?_
  refine (Machine.verdict_table_eq_accept_iff hwithin hproduct.symbols_ne_nil w).trans ?_
  refine and_congr_right fun hw => ?_
  rw [productMachine, accepts_pairMachine hl.completeLeft hr.completeRight
    (alphabet_completeOver _ _) (alphabet_completeOver _ _) hw]
  simp only [verdict_completeOver_eq_accept_iff hl.toWellFormed hw,
    verdict_completeOver_eq_accept_iff hr.toWellFormed hw]

/-- A word leads to a pair of states. Where a table cannot read the word, its sink is in the
pair. -/
theorem run_productMachine (hl : left.WellFormed) (hr : right.WellFormed) {w : List Char}
    (hw : ∀ c ∈ w, c ∈ left.alphabet.union right.alphabet) :
    (left.productMachine right accept).run w =
      ((left.run? left.start w).getD left.size, (right.run? right.start w).getD right.size) := by
  refine runFrom_pairMachine ?_ ?_
  · rw [start_completeOver]
    exact run?_completeOver hl (fun c hc => (Alphabet.mem_union _ _ c).2 (.inr hc)) hl.start_lt hw
  · rw [start_completeOver]
    exact run?_completeOver hr (fun c hc => (Alphabet.mem_union _ _ c).2 (.inl hc)) hr.start_lt hw

theorem run?_product_eq_iff (hl : left.Valid) (hr : right.Valid) {v w : List Char}
    (hv : ∀ c ∈ v, c ∈ left.alphabet.union right.alphabet)
    (hw : ∀ c ∈ w, c ∈ left.alphabet.union right.alphabet) :
    (left.product right accept).run? (left.product right accept).start v =
        (left.product right accept).run? (left.product right accept).start w ↔
      (left.productMachine right accept).run v = (left.productMachine right accept).run w :=
  Machine.run?_table_eq_iff (within_productMachine accept hl.toWellFormed hr.toWellFormed)
    (hl.symbols_union_ne_nil _) hv hw

/-- The product has as many states as there are pairs to which words lead. -/
theorem size_product (hl : left.WellFormed) (hr : right.WellFormed) :
    (left.product right accept).size = ((left.productMachine right accept).run ''
      {w | ∀ c ∈ w, c ∈ left.alphabet.union right.alphabet}).ncard :=
  Machine.size_table (within_productMachine accept hl hr)

end Product

end Table

end FiniteState
