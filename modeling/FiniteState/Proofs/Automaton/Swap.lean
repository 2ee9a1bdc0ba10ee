import FiniteState.Proofs.Automaton.Canonical
import FiniteState.Proofs.Automaton.Isomorphism

/-!
# Swapping the sides of a combination

The machine that runs two tables is, with its sides swapped, the same machine with every pair
swapped. A search of it meets the pairs in another order and gives them other names, but words
lead to one pair on the one side exactly if they do on the other, so the two combinations are
isomorphic. Both have one state for each pair of states to which some word over the symbols of
both sides leads, where a side that cannot read the word has ended in its sink.
-/

namespace FiniteState

namespace Table

variable {left right : Table}

/-! ## Swapped pairs -/

theorem runFrom_pairMachine_swap (left right : Table) (accept : Bool → Bool → Bool)
    (q : Nat × Nat) (w : List Char) :
    (pairMachine right left fun x y => accept y x).runFrom q.swap w =
      ((pairMachine left right accept).runFrom q w).swap := by
  induction w generalizing q with
  | nil => rfl
  | cons c w ih =>
      rw [Machine.runFrom_cons, Machine.runFrom_cons]
      exact ih ((pairMachine left right accept).step q c)

theorem run_pairMachine_swap (left right : Table) (accept : Bool → Bool → Bool)
    (w : List Char) : (pairMachine right left fun x y => accept y x).run w =
      ((pairMachine left right accept).run w).swap :=
  runFrom_pairMachine_swap left right accept (left.start, right.start) w

/-- The sides end in the same states on whichever side they are. -/
theorem run_productMachine_swap (left right : Table) (accept : Bool → Bool → Bool)
    (w : List Char) : (right.productMachine left fun x y => accept y x).run w =
      ((left.productMachine right accept).run w).swap := by
  rw [productMachine, Alphabet.union_comm]
  exact run_pairMachine_swap _ _ accept w

/-- The product decides what happens in the product with the sides swapped. -/
theorem refines_swap (hl : left.Valid) (hr : right.Valid) (accept : Bool → Bool → Bool) :
    (left.product right accept).Refines (right.product left fun x y => accept y x) := by
  intro v w i hv hw
  have ht := hl.product accept hr
  have hvS := (ht.exists_run?_iff v).1 ⟨i, hv⟩
  have hwS := (ht.exists_run?_iff w).1 ⟨i, hw⟩
  have hpair := (run?_product_eq_iff accept hl hr hvS hwS).1 (hv.trans hw.symm)
  rw [alphabet_product, Alphabet.union_comm] at hvS hwS
  rw [run?_product_eq_iff _ hr hl hvS hwS, run_productMachine_swap left right,
    run_productMachine_swap left right, hpair]

theorem verdict_product_swap (hl : left.Valid) (hr : right.Valid) (accept : Bool → Bool → Bool)
    (w : List Char) : (right.product left fun x y => accept y x).verdict w =
      (left.product right accept).verdict w := by
  rw [verdict_product _ hr hl, verdict_product _ hl hr, Alphabet.union_comm]

theorem size_product_swap (hl : left.WellFormed) (hr : right.WellFormed)
    (accept : Bool → Bool → Bool) : (right.product left fun x y => accept y x).size =
      (left.product right accept).size := by
  rw [size_product _ hr hl, size_product _ hl hr, Alphabet.union_comm]
  have hswap : (right.productMachine left fun x y => accept y x).run =
      Prod.swap ∘ (left.productMachine right accept).run :=
    funext (run_productMachine_swap left right accept)
  rw [hswap, Set.image_comp, Set.ncard_image_of_injective _ Prod.swap_injective]

/-- Products of the same tables are isomorphic in whichever order the tables are. -/
theorem isomorphic_product_swap (hl : left.Valid) (hr : right.Valid)
    (accept : Bool → Bool → Bool) : (left.product right accept).isomorphic
      (right.product left fun x y => accept y x) = true := by
  have ht := hl.product accept hr
  have hu := hr.product (fun x y => accept y x) hl
  have halphabet := Alphabet.union_comm right.alphabet left.alphabet
  rw [isomorphic_iff ht.toWellFormed hu.toWellFormed]
  refine ⟨(size_product_swap hl.toWellFormed hr.toWellFormed accept).symm, halphabet.symm, ?_⟩
  exact (refines_swap hl hr accept).exists_corresponds (refines_swap hr hl _) ht.toWellFormed
    hu.toWellFormed halphabet (verdict_product_swap hl hr accept)

end Table

namespace Automaton

variable {a b : Automaton} {S T : Alphabet}

/-! ## Pairs of states -/

/-- The word ends in the state. If the automaton cannot read it, it ends in a sink, which is
`none`. -/
def EndsIn (a : Automaton) (w : List Char) : Option String → Prop
  | some q => ∃ p ∈ stateNames a.starts, Path a Label.pieces p w q
  | none => ∀ p ∈ stateNames a.starts, ∀ q, ¬ Path a Label.pieces p w q

/-- The pairs of states, or sinks, in which words over `S` end. -/
def ReachedPairs (a b : Automaton) (S : Alphabet) : Set (Option String × Option String) :=
  {q | ∃ w, (∀ c ∈ w, c ∈ S) ∧ a.EndsIn w q.1 ∧ b.EndsIn w q.2}

/-- A complete deterministic automaton ends in one state, or in its sink. -/
theorem IsComplete.endsIn_iff (h : a.IsComplete S) (w : List Char) (q : Option String) :
    a.EndsIn w q ↔ (a.tableOver S).names[((a.tableOver S).run? (a.tableOver S).start w).getD
      (a.tableOver S).size]? = q := by
  have hpath := h.path_iff_exists_run? h.valid_tableOver.start_lt w
  cases hw : (a.tableOver S).run? (a.tableOver S).start w with
  | none =>
      have hsink : (a.tableOver S).names[(a.tableOver S).size]? = none :=
        List.getElem?_eq_none (List.length_map _).le
      rw [Option.getD_none, hsink]
      cases q <;> simp [EndsIn, h.stateNames_starts, hpath, hw]
  | some j =>
      have hj := h.valid_tableOver.lt_of_run? h.valid_tableOver.start_lt hw
      rw [Option.getD_some, Table.getElem?_names_of_lt hj]
      cases q <;> simp [EndsIn, h.stateNames_starts, hpath, hw]

/-- The entries of a list without repetitions and the place behind them can be told apart. -/
theorem injOn_getElem? {α : Type} {l : List α} (h : l.Nodup) :
    Set.InjOn (fun i => l[i]?) {i | i ≤ l.length} := by
  intro i hi j hj heq
  by_cases hlt : i < l.length
  · exact (List.getElem?_inj hlt h).1 heq
  · by_cases hlt' : j < l.length
    · exact ((List.getElem?_inj hlt' h).1 heq.symm).symm
    · have hij : i ≤ j := Nat.le_trans hi (Nat.not_lt.1 hlt')
      have hji : j ≤ i := Nat.le_trans hj (Nat.not_lt.1 hlt)
      exact Nat.le_antisymm hij hji

namespace IsComplete

variable (ha : a.IsComplete S) (hb : b.IsComplete T)

include ha hb

/-- The pairs of states in which words end are the states of the product by their names. -/
theorem reachedPairs_eq (accept : Bool → Bool → Bool) : a.ReachedPairs b (S.union T) =
    Prod.map (fun i => (a.tableOver S).names[i]?) (fun j => (b.tableOver T).names[j]?) ''
      (((a.tableOver S).productMachine (b.tableOver T) accept).run ''
        {w | ∀ c ∈ w, c ∈ S.union T}) := by
  ext ⟨p, q⟩
  rw [Set.image_image]
  refine exists_congr fun w => and_congr_right fun hw => ?_
  have hrun := Table.run_productMachine accept ha.valid_tableOver.toWellFormed
    hb.valid_tableOver.toWellFormed hw
  simp only [ha.endsIn_iff, hb.endsIn_iff, hrun, Prod.map_apply, Prod.mk.injEq]

/-- The names tell the states of the product apart. -/
theorem injOn_names (accept : Bool → Bool → Bool) : Set.InjOn
    (Prod.map (fun i => (a.tableOver S).names[i]?) (fun j => (b.tableOver T).names[j]?))
    (((a.tableOver S).productMachine (b.tableOver T) accept).run ''
      {w | ∀ c ∈ w, c ∈ S.union T}) := by
  have hl := ha.valid_tableOver
  have hr := hb.valid_tableOver
  have hle : ∀ {t : Table}, t.WellFormed → ∀ w : List Char,
      (t.run? t.start w).getD t.size ≤ t.names.length := by
    intro t ht w
    rw [Table.names, List.length_map]
    cases hw : t.run? t.start w with
    | none => exact Nat.le_refl _
    | some j => exact (ht.lt_of_run? ht.start_lt hw).le
  refine Set.InjOn.mono ?_ ((injOn_getElem? hl.names_nodup).prodMap (injOn_getElem? hr.names_nodup))
  rintro _ ⟨w, hw, rfl⟩
  rw [Table.run_productMachine accept hl.toWellFormed hr.toWellFormed hw]
  exact ⟨hle hl.toWellFormed w, hle hr.toWellFormed w⟩

theorem ncard_reachedPairs (accept : Bool → Bool → Bool) :
    (a.ReachedPairs b (S.union T)).ncard =
      ((a.tableOver S).product (b.tableOver T) accept).size := by
  rw [ha.reachedPairs_eq hb accept, Table.size_product accept ha.valid_tableOver.toWellFormed
    hb.valid_tableOver.toWellFormed]
  exact (ha.injOn_names hb accept).ncard_image

end IsComplete

/-- Swapping the sides of a combination only renames its states. With either order, there is one
state for each pair of states in which the two sides end on some word over the symbols of both, a
side that lacks a symbol of the word in its sink. -/
theorem combine_swap (ha : a.validate none = .ok S) (hb : b.validate none = .ok T)
    (accept : Bool → Bool → Bool) : ∃ c d, a.combine b accept = .ok c ∧
      (b.combine a fun x y => accept y x) = .ok d ∧ c.isomorphic d = true ∧
      c.states.length = (a.ReachedPairs b (S.union T)).ncard ∧
      d.states.length = (a.ReachedPairs b (S.union T)).ncard := by
  have hac := (validate_none_eq_ok_iff a S).1 ha
  have hbc := (validate_none_eq_ok_iff b T).1 hb
  have hl := hac.valid_tableOver
  have hr := hbc.valid_tableOver
  have hc := hl.product accept hr
  have hd := hr.product (fun x y => accept y x) hl
  refine ⟨_, _, hac.combine_eq hbc accept, hbc.combine_eq hac _, ?_, ?_, ?_⟩
  · rw [isomorphic_toAutomaton hc hd]
    exact Table.isomorphic_product_swap hl hr accept
  · rw [Table.length_states_toAutomaton hc.toWellFormed, hac.ncard_reachedPairs hbc accept]
  · rw [Table.length_states_toAutomaton hd.toWellFormed, hac.ncard_reachedPairs hbc accept,
      Table.size_product_swap hl.toWellFormed hr.toWellFormed]

/-- One state that accepts the words over a symbol that `twoCycle` lacks. -/
def otherSymbol : Automaton :=
  ofLists [⟨"A", true, true, none⟩] [⟨"A", "A", ⟨["b"]⟩⟩]

/-- The two sides have no symbol in common. Of the six pairs of states and sinks, all are reached
but the one of the second state on the left and the state on the right. -/
theorem combine_swap_otherSymbol :
    twoCycle.validate none = .ok (Alphabet.ofList ['a']) ∧
    otherSymbol.validate none = .ok (Alphabet.ofList ['b']) ∧
    (∃ c d, twoCycle.combine otherSymbol BoolOp.minus.apply = .ok c ∧
      (otherSymbol.combine twoCycle fun x y => BoolOp.minus.apply y x) = .ok d ∧
      c.isomorphic d = true) ∧
    (twoCycle.ReachedPairs otherSymbol (Alphabet.ofList ['a', 'b'])).ncard = 5 := by
  have htwo : twoCycle.validate none = .ok (Alphabet.ofList ['a']) := by decide +kernel
  have hother : otherSymbol.validate none = .ok (Alphabet.ofList ['b']) := by decide +kernel
  have hlength : (twoCycle.combine otherSymbol BoolOp.minus.apply).map
      (fun c => c.states.length) = .ok 5 := by decide +kernel
  obtain ⟨c, d, hc, hd, hiso, hcount, -⟩ := combine_swap htwo hother BoolOp.minus.apply
  refine ⟨htwo, hother, ⟨c, d, hc, hd, hiso⟩, ?_⟩
  rw [hc] at hlength
  exact hcount.symm.trans (Except.ok.inj hlength)

end Automaton

end FiniteState
