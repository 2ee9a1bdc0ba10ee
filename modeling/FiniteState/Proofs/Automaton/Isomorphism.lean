import FiniteState.Proofs.Automaton.Compare
import FiniteState.Proofs.Table.Pairing

/-!
# What the check for isomorphism decides

The check for isomorphism pairs off rows of two tables, but what it decides can be said of the
automata: both are complete and deterministic over one alphabet, they have as many states, and the
states that words lead to can be paired off so that start states, accepting states and transitions
agree. The names that a table gives to its states carry a correspondence of tables over to the
automata and back. Correspondences can be inverted and composed, so isomorphism is an equivalence
relation on complete deterministic automata, and corresponding states say the same of every word.
-/

namespace FiniteState

namespace Table

variable {left right : Table} {f : Nat → Nat}

/-- A symbol leads to partners if and only if it leads from one state of the left table to another
whenever it leads from the partner of the one to the partner of the other. -/
theorem step?_eq_map_iff (hf : Set.BijOn f {i | left.LeadsTo i} {i | right.LeadsTo i}) {i : Nat}
    (hi : left.LeadsTo i) (c : Char) : right.step? (f i) c = (left.step? i c).map f ↔
      ∀ j, left.LeadsTo j → (right.step? (f i) c = some (f j) ↔ left.step? i c = some j) := by
  constructor
  · intro h j hj
    rw [h, Option.map_eq_some_iff]
    constructor
    · rintro ⟨k, hk, heq⟩
      rw [hk, hf.injOn (hi.step hk) hj heq]
    · exact fun hk => ⟨j, hk, rfl⟩
  · intro h
    cases hk : left.step? i c with
    | some k => exact (h k (hi.step hk)).2 hk
    | none =>
        cases hk' : right.step? (f i) c with
        | none => rfl
        | some k' =>
            -- the state is the partner of one to which nothing leads on the left
            obtain ⟨k, hleads, rfl⟩ := hf.surjOn (LeadsTo.step (hf.mapsTo hi) hk')
            have hstep := (h k hleads).1 hk'
            rw [hk] at hstep
            cases hstep

end Table

namespace Automaton

/-- Some word leads from a start state to the state. -/
def LeadsTo (a : Automaton) (q : String) : Prop :=
  ∃ p ∈ stateNames a.starts, ∃ w, Path a Label.pieces p w q

/-- The states that `f` pairs off play the same part in both automata. Only states that words lead
to are asked for, and the states that symbols lead to from them are such states again. -/
structure Corresponds (a b : Automaton) (f : String → String) : Prop where
  bijOn : Set.BijOn f {p | a.LeadsTo p} {p | b.LeadsTo p}
  start : stateNames b.starts = (stateNames a.starts).map f
  accepting : ∀ p, a.LeadsTo p → (f p ∈ stateNames b.acceptings ↔ p ∈ stateNames a.acceptings)
  step : ∀ p q, a.LeadsTo p → a.LeadsTo q → ∀ c,
    (b.Edge Label.pieces (f p) [c] (f q) ↔ a.Edge Label.pieces p [c] q)

variable {a b c : Automaton} {S T : Alphabet} {f g : String → String} {F : Nat → Nat}

/-! ## Correspondences -/

theorem leadsTo_of_mem_starts {p : String} (hp : p ∈ stateNames a.starts) : a.LeadsTo p :=
  ⟨p, hp, [], .nil p⟩

namespace Corresponds

theorem refl (a : Automaton) : a.Corresponds a id where
  bijOn := Set.bijOn_id _
  start := (List.map_id _).symm
  accepting _ _ := Iff.rfl
  step _ _ _ _ _ := Iff.rfl

theorem symm (h : a.Corresponds b f) : ∃ g, b.Corresponds a g := by
  have hinv := h.bijOn.invOn_invFunOn
  have hbijOn := h.bijOn.symm hinv.symm
  refine ⟨_, hbijOn, ?start, ?accepting, ?step⟩
  case start =>
    rw [h.start, List.map_map]
    exact (List.map_id _).symm.trans (List.map_congr_left fun p hp =>
      (hinv.1 (leadsTo_of_mem_starts hp)).symm)
  case accepting =>
    intro p hp
    rw [← h.accepting _ (hbijOn.mapsTo hp), hinv.2 hp]
  case step =>
    intro p q hp hq c
    rw [← h.step _ _ (hbijOn.mapsTo hp) (hbijOn.mapsTo hq), hinv.2 hp, hinv.2 hq]

theorem trans (hf : a.Corresponds b f) (hg : b.Corresponds c g) : a.Corresponds c (g ∘ f) where
  bijOn := hg.bijOn.comp hf.bijOn
  start := by rw [hg.start, hf.start, List.map_map]
  accepting p hp := (hg.accepting _ (hf.bijOn.mapsTo hp)).trans (hf.accepting p hp)
  step p q hp hq c := (hg.step _ _ (hf.bijOn.mapsTo hp) (hf.bijOn.mapsTo hq) c).trans
    (hf.step p q hp hq c)

end Corresponds

/-! ## Names of rows -/

theorem name_mem_acceptings_iff (a : Automaton) (S : Alphabet) {i : Nat}
    (hi : i < (a.tableOver S).size) :
    (a.tableOver S).name i ∈ stateNames a.acceptings ↔ (a.tableOver S).accepting i = true := by
  obtain ⟨s, hs, hname⟩ := (getElem?_names_eq_some_iff a i _).1 (getElem?_names_tableOver hi)
  rw [accepting_tableOver a S hs, ← hname]
  have hmem := List.mem_of_getElem? hs
  constructor
  · intro hs'
    obtain ⟨u, hu, heq⟩ := List.mem_map.1 hs'
    obtain ⟨hu, haccepting⟩ := List.mem_filter.1 hu
    rwa [← List.inj_on_of_nodup_map a.nodup hu hmem heq]
  · exact fun haccepting => List.mem_map_of_mem (List.mem_filter.2 ⟨hmem, haccepting⟩)

namespace IsComplete

theorem stateNames_starts (h : a.IsComplete S) :
    stateNames a.starts = [(a.tableOver S).name (a.tableOver S).start] := by
  obtain ⟨p, hp, hget⟩ := h.exists_start
  have hname := getElem?_names_tableOver h.valid_tableOver.start_lt
  rw [hp, Option.some.inj (hname.symm.trans hget)]
  rfl

/-- The names pair off the rows and the states that words lead to. -/
theorem bijOn_name (h : a.IsComplete S) :
    Set.BijOn (a.tableOver S).name {i | (a.tableOver S).LeadsTo i} {p | a.LeadsTo p} := by
  have hvalid := h.valid_tableOver
  have hleads : ∀ q, a.LeadsTo q ↔
      ∃ w j, (a.tableOver S).run? (a.tableOver S).start w = some j ∧
        (a.tableOver S).name j = q := by
    intro q
    rw [LeadsTo, h.stateNames_starts]
    simp only [List.mem_singleton, exists_eq_left, h.path_iff_exists_run? hvalid.start_lt]
  refine ⟨?mapsTo, ?injOn, ?surjOn⟩
  case mapsTo =>
    rintro i ⟨w, hw⟩
    exact (hleads _).2 ⟨w, i, hw, rfl⟩
  case injOn =>
    intro i hi j hj heq
    exact hvalid.name_inj (hvalid.lt_of_leadsTo hi) (hvalid.lt_of_leadsTo hj) heq
  case surjOn =>
    intro q hq
    obtain ⟨w, j, hw, hname⟩ := (hleads q).1 hq
    exact ⟨j, ⟨w, hw⟩, hname⟩

theorem edge_name_iff (h : a.IsComplete S) {i j : Nat} (hi : i < (a.tableOver S).size)
    (hj : j < (a.tableOver S).size) (c : Char) :
    a.Edge Label.pieces ((a.tableOver S).name i) [c] ((a.tableOver S).name j) ↔
      (a.tableOver S).step? i c = some j := by
  have hni := getElem?_names_tableOver hi
  have hnj := getElem?_names_tableOver hj
  have hedge := h.numberedEdge_iff i (List.getElem?_eq_some_iff.1 hni).1 [c] j
  constructor
  · intro he
    obtain ⟨d, hd, hstep⟩ := hedge.1 ⟨_, _, hni, hnj, he⟩
    rwa [List.singleton_inj.1 hd]
  · intro hstep
    obtain ⟨p, q, hp, hq, he⟩ := hedge.2 ⟨c, rfl, hstep⟩
    rwa [Option.some.inj (hni.symm.trans hp), Option.some.inj (hnj.symm.trans hq)]

end IsComplete

/-! ## Correspondences of tables -/

section

variable (ha : a.IsComplete S) (hb : b.IsComplete T)

include ha hb

/-- Maps of the states and of the rows that agree along the names are correspondences together. -/
theorem corresponds_iff_tableOver
    (hf : Set.BijOn f {p | a.LeadsTo p} {p | b.LeadsTo p})
    (hF : Set.BijOn F {i | (a.tableOver S).LeadsTo i} {i | (b.tableOver T).LeadsTo i})
    (hname : ∀ i, (a.tableOver S).LeadsTo i →
      f ((a.tableOver S).name i) = (b.tableOver T).name (F i)) :
    a.Corresponds b f ↔ (a.tableOver S).Corresponds (b.tableOver T) F := by
  have hal := ha.valid_tableOver
  have hbl := hb.valid_tableOver
  have hlt : ∀ {i}, (a.tableOver S).LeadsTo i → i < (a.tableOver S).size := hal.lt_of_leadsTo
  have hlt' : ∀ {i}, (a.tableOver S).LeadsTo i → F i < (b.tableOver T).size := fun hi =>
    hbl.lt_of_leadsTo (hF.mapsTo hi)
  have hrow : ∀ p, a.LeadsTo p → ∃ i, (a.tableOver S).LeadsTo i ∧ (a.tableOver S).name i = p :=
    fun p hp => ha.bijOn_name.surjOn hp
  have hstart : stateNames b.starts = (stateNames a.starts).map f ↔
      F (a.tableOver S).start = (b.tableOver T).start := by
    rw [ha.stateNames_starts, hb.stateNames_starts, List.map_singleton, List.singleton_inj,
      hname _ (Table.leadsTo_start _)]
    constructor
    · intro h
      exact (hbl.name_inj hbl.start_lt (hlt' (Table.leadsTo_start _)) h).symm
    · exact fun h => congrArg _ h.symm
  have haccepting : ∀ i, (a.tableOver S).LeadsTo i →
      ((f ((a.tableOver S).name i) ∈ stateNames b.acceptings ↔
        (a.tableOver S).name i ∈ stateNames a.acceptings) ↔
        (b.tableOver T).accepting (F i) = (a.tableOver S).accepting i) := by
    intro i hi
    rw [hname i hi, name_mem_acceptings_iff b T (hlt' hi), name_mem_acceptings_iff a S (hlt hi)]
    exact Bool.eq_iff_iff.symm
  have hstep : ∀ i j, (a.tableOver S).LeadsTo i → (a.tableOver S).LeadsTo j → ∀ c,
      ((b.Edge Label.pieces (f ((a.tableOver S).name i)) [c] (f ((a.tableOver S).name j)) ↔
        a.Edge Label.pieces ((a.tableOver S).name i) [c] ((a.tableOver S).name j)) ↔
        ((b.tableOver T).step? (F i) c = some (F j) ↔ (a.tableOver S).step? i c = some j)) := by
    intro i j hi hj c
    rw [hname i hi, hname j hj, hb.edge_name_iff (hlt' hi) (hlt' hj),
      ha.edge_name_iff (hlt hi) (hlt hj)]
  constructor
  · intro h
    refine ⟨hF, hstart.1 h.start, fun i hi => ?_, fun i hi c => ?_⟩
    · exact (haccepting i hi).1 (h.accepting _ (ha.bijOn_name.mapsTo hi))
    · refine (Table.step?_eq_map_iff hF hi c).2 fun j hj => (hstep i j hi hj c).1 ?_
      exact h.step _ _ (ha.bijOn_name.mapsTo hi) (ha.bijOn_name.mapsTo hj) c
  · intro h
    refine ⟨hf, hstart.2 h.start, fun p hp => ?_, fun p q hp hq c => ?_⟩
    · obtain ⟨i, hi, rfl⟩ := hrow p hp
      exact (haccepting i hi).2 (h.accepting i hi)
    · obtain ⟨i, hi, rfl⟩ := hrow p hp
      obtain ⟨j, hj, rfl⟩ := hrow q hq
      exact (hstep i j hi hj c).2 ((Table.step?_eq_map_iff hF hi c).1 (h.step i hi c) j hj)

/-- Automata correspond if and only if their tables do. -/
theorem exists_corresponds_iff_tableOver : (∃ f, a.Corresponds b f) ↔
    ∃ F, (a.tableOver S).Corresponds (b.tableOver T) F := by
  have hleft := ha.bijOn_name
  have hright := hb.bijOn_name
  constructor
  · rintro ⟨f, hf⟩
    have hinv := hright.invOn_invFunOn
    have hF := (hright.symm hinv.symm).comp (hf.bijOn.comp hleft)
    refine ⟨_, (corresponds_iff_tableOver ha hb hf.bijOn hF fun i hi => ?_).1 hf⟩
    exact (hinv.2 (hf.bijOn.mapsTo (hleft.mapsTo hi))).symm
  · rintro ⟨F, hF⟩
    have hinv := hleft.invOn_invFunOn
    have hf := hright.comp (hF.bijOn.comp (hleft.symm hinv.symm))
    refine ⟨_, (corresponds_iff_tableOver ha hb hf hF.bijOn fun i hi => ?_).2 hF⟩
    exact congrArg (fun j => (b.tableOver T).name (F j)) (hinv.1 hi)

/-- The check finds complete deterministic automata isomorphic if they have the same alphabet, as
many states, and corresponding states. -/
theorem IsComplete.isomorphic_iff : a.isomorphic b = true ↔
    S = T ∧ a.states.length = b.states.length ∧ ∃ f, a.Corresponds b f := by
  rw [isomorphic, ha.table?, hb.table?, exists_corresponds_iff_tableOver ha hb,
    ← size_tableOver a S, ← size_tableOver b T]
  exact (Table.isomorphic_iff ha.valid_tableOver.toWellFormed hb.valid_tableOver.toWellFormed).trans
    and_left_comm

/-- Corresponding automata say the same of every word. -/
theorem Corresponds.verdict_eq (h : a.Corresponds b f) (w : List Char) :
    a.verdict w = b.verdict w := by
  obtain ⟨F, hF⟩ := (exists_corresponds_iff_tableOver ha hb).1 ⟨f, h⟩
  rw [ha.verdict_eq, hb.verdict_eq, hF.verdict_eq]

end

/-- Only complete deterministic automata are found isomorphic. -/
theorem isComplete_of_isomorphic (h : a.isomorphic b = true) :
    ∃ S T, a.IsComplete S ∧ b.IsComplete T := by
  cases hS : a.validate none with
  | error d =>
      rw [isomorphic, table?_eq_error hS] at h
      cases h
  | ok S =>
      have ha := (validate_none_eq_ok_iff a S).1 hS
      cases hT : b.validate none with
      | error d =>
          rw [isomorphic, ha.table?, table?_eq_error hT] at h
          cases h
      | ok T => exact ⟨S, T, ha, (validate_none_eq_ok_iff b T).1 hT⟩

/-- Automata are found isomorphic if they are valid over one alphabet, have as many states, and
correspond. -/
theorem isomorphic_iff_corresponds (a b : Automaton) : a.isomorphic b = true ↔
    ∃ S, a.validate none = .ok S ∧ b.validate none = .ok S ∧
      a.states.length = b.states.length ∧ ∃ f, a.Corresponds b f := by
  simp only [validate_none_eq_ok_iff]
  constructor
  · intro h
    obtain ⟨S, T, ha, hb⟩ := isComplete_of_isomorphic h
    obtain ⟨rfl, hlength, hf⟩ := (IsComplete.isomorphic_iff ha hb).1 h
    exact ⟨S, ha, hb, hlength, hf⟩
  · rintro ⟨S, ha, hb, hlength, hf⟩
    exact (IsComplete.isomorphic_iff ha hb).2 ⟨rfl, hlength, hf⟩

/-! ## Isomorphism as a relation -/

theorem isomorphic_self_iff (a : Automaton) :
    a.isomorphic a = true ↔ ∃ S, a.validate none = .ok S := by
  rw [isomorphic_iff_corresponds]
  constructor
  · rintro ⟨S, hS, -⟩
    exact ⟨S, hS⟩
  · rintro ⟨S, hS⟩
    exact ⟨S, hS, hS, rfl, id, .refl a⟩

theorem isomorphic_of_isomorphic (h : a.isomorphic b = true) : b.isomorphic a = true := by
  obtain ⟨S, ha, hb, hlength, f, hf⟩ := (isomorphic_iff_corresponds a b).1 h
  exact (isomorphic_iff_corresponds b a).2 ⟨S, hb, ha, hlength.symm, hf.symm⟩

theorem isomorphic_trans (hab : a.isomorphic b = true) (hbc : b.isomorphic c = true) :
    a.isomorphic c = true := by
  obtain ⟨S, ha, hb, hlength, f, hf⟩ := (isomorphic_iff_corresponds a b).1 hab
  obtain ⟨T, hb', hc, hlength', g, hg⟩ := (isomorphic_iff_corresponds b c).1 hbc
  obtain rfl : S = T := Except.ok.inj (hb.symm.trans hb')
  exact (isomorphic_iff_corresponds a c).2 ⟨S, ha, hc, hlength.trans hlength', _, hf.trans hg⟩

theorem equivalent_of_isomorphic (h : a.isomorphic b = true) : a.equivalent b = .ok true := by
  obtain ⟨S, hS, hT, -, f, hf⟩ := (isomorphic_iff_corresponds a b).1 h
  have ha := (validate_none_eq_ok_iff a S).1 hS
  have hb := (validate_none_eq_ok_iff b S).1 hT
  obtain ⟨e, he, hiff⟩ := ha.exists_equivalent hb
  rw [he, hiff.2 ⟨rfl, hf.verdict_eq ha hb⟩]

/-- Two automata are found isomorphic exactly if both are valid over one alphabet, have as many
states, and the states that words lead to can be paired off so that start, acceptance and
transitions agree. Every valid automaton is isomorphic to itself and no other one is, the sides may
be swapped, isomorphisms may be chained, and isomorphic automata are equivalent. -/
theorem isomorphic_correct (a b c : Automaton) :
    (a.isomorphic b = true ↔ ∃ S, a.validate none = .ok S ∧ b.validate none = .ok S ∧
        a.states.length = b.states.length ∧ ∃ f, a.Corresponds b f) ∧
      (a.isomorphic a = true ↔ ∃ S, a.validate none = .ok S) ∧
      a.isomorphic b = b.isomorphic a ∧
      (a.isomorphic b = true → b.isomorphic c = true → a.isomorphic c = true) ∧
      (a.isomorphic b = true → a.equivalent b = .ok true) := by
  refine ⟨isomorphic_iff_corresponds a b, isomorphic_self_iff a, ?_, isomorphic_trans,
    equivalent_of_isomorphic⟩
  exact Bool.eq_iff_iff.2 ⟨isomorphic_of_isomorphic, isomorphic_of_isomorphic⟩

/-- A cycle of two states, and a state that no word leads to. -/
def spareAccepting : Automaton :=
  ofLists [⟨"A", true, true, none⟩, ⟨"B", false, false, none⟩, ⟨"X", false, true, none⟩]
    [⟨"A", "B", ⟨["a"]⟩⟩, ⟨"B", "A", ⟨["a"]⟩⟩, ⟨"X", "X", ⟨["a"]⟩⟩]

/-- The cycle with other names in another order, and another such state. -/
def spareRejecting : Automaton :=
  ofLists [⟨"Y", false, false, none⟩, ⟨"q", false, false, none⟩, ⟨"p", true, true, none⟩]
    [⟨"q", "p", ⟨["a"]⟩⟩, ⟨"Y", "q", ⟨["a"]⟩⟩, ⟨"p", "q", ⟨["a"]⟩⟩]

/-- The states that no word leads to take part in the count only. -/
theorem isomorphic_spareStates : spareAccepting.isomorphic spareRejecting = true ∧
    (∃ f, spareAccepting.Corresponds spareRejecting f) ∧
    spareRejecting.isomorphic spareAccepting = true ∧
    spareAccepting.equivalent spareRejecting = .ok true := by
  have hiso : spareAccepting.isomorphic spareRejecting = true := by decide +kernel
  obtain ⟨hiff, -, hswap, -, hequivalent⟩ :=
    isomorphic_correct spareAccepting spareRejecting spareAccepting
  obtain ⟨S, -, -, -, hf⟩ := hiff.1 hiso
  exact ⟨hiso, hf, hswap.symm.trans hiso, hequivalent hiso⟩

end Automaton

end FiniteState
