import Mathlib.Data.List.Permutation
import Mathlib.Data.Multiset.Count
import FiniteState.Proofs.Automaton.Witness

/-!
# The order of states, transitions and tokens

An automaton is written down in some order, which means nothing for what it accepts. If it is
complete and deterministic, it still is in any other order, and accepts the same words. The word
that the search finds is the first of these in the order of code points, so it is the same too,
although the search itself follows the order in which states and transitions are listed.
-/

namespace FiniteState

/-- A transition without the order of its tokens. -/
def Transition.content (t : Transition) : String × String × Multiset String :=
  (t.source, t.target, t.label.tokens)

theorem Transition.content_eq_iff (t u : Transition) : t.content = u.content ↔
    t.source = u.source ∧ t.target = u.target ∧ t.label.tokens.Perm u.label.tokens := by
  rw [content, content, Prod.mk.injEq, Prod.mk.injEq, Multiset.coe_eq_coe]

namespace Automaton

/-- The same automaton with its states, its transitions and their tokens in another order. -/
structure Rearranged (a b : Automaton) : Prop where
  states : a.states.Perm b.states
  transitions : (a.transitions.map Transition.content).Perm (b.transitions.map Transition.content)

variable {a b : Automaton} {S : Alphabet}

namespace Rearranged

theorem symm (h : Rearranged a b) : Rearranged b a := ⟨h.states.symm, h.transitions.symm⟩

theorem mem_names_iff (h : Rearranged a b) (name : String) : name ∈ a.names ↔ name ∈ b.names :=
  (h.states.map State.name).mem_iff

theorem mem_starts_iff (h : Rearranged a b) (s : State) : s ∈ a.starts ↔ s ∈ b.starts :=
  (h.states.filter State.starting).mem_iff

theorem mem_acceptings_iff (h : Rearranged a b) (s : State) :
    s ∈ a.acceptings ↔ s ∈ b.acceptings :=
  (h.states.filter State.accepting).mem_iff

/-- Every transition is found again. -/
theorem exists_transition (h : Rearranged a b) {t : Transition} (ht : t ∈ a.transitions) :
    ∃ u ∈ b.transitions, u.source = t.source ∧ u.target = t.target ∧
      u.label.tokens.Perm t.label.tokens := by
  obtain ⟨u, hu, hcontent⟩ := List.mem_map.1
    (h.transitions.mem_iff.1 (List.mem_map_of_mem (f := Transition.content) ht))
  exact ⟨u, hu, (Transition.content_eq_iff u t).1 hcontent⟩

/-! ## The language -/

theorem path (h : Rearranged a b) {p q : String} {w : List Char}
    (hw : Path a Label.pieces p w q) : Path b Label.pieces p w q := by
  induction hw with
  | nil p => exact .nil p
  | @cons t v w q ht hsource htarget hv _ ih =>
      obtain ⟨u, hu, hus, hut, htokens⟩ := h.exists_transition ht
      have hvu : v ∈ u.label.pieces := by
        rcases hv with ⟨hnil, hε⟩ | ⟨c, hword, hc, hmem⟩
        · exact .inl ⟨hnil, htokens.mem_iff.2 hε⟩
        · exact .inr ⟨c, hword, hc, htokens.mem_iff.2 hmem⟩
      rw [← hus]
      refine .cons hu ?_ ?_ hvu (hut ▸ ih)
      · rw [hus]
        exact (h.mem_names_iff _).1 hsource
      · rw [hut]
        exact (h.mem_names_iff _).1 htarget

theorem mem_language_of_mem (h : Rearranged a b) {w : List Char} (hw : w ∈ a.language) :
    w ∈ b.language := by
  obtain ⟨p, hp, q, hq, hpath⟩ := hw
  exact ⟨p, (h.mem_starts_iff p).1 hp, q, (h.mem_acceptings_iff q).1 hq, h.path hpath⟩

theorem mem_language_iff (h : Rearranged a b) (w : List Char) :
    w ∈ a.language ↔ w ∈ b.language :=
  ⟨h.mem_language_of_mem, h.symm.mem_language_of_mem⟩

/-! ## Completeness -/

/-- How often a token stands on the transitions that leave a state, told by the contents of all
transitions. -/
theorem count_leavingTokens (a : Automaton) (name token : String) :
    (a.leavingTokens name).count token =
      (((a.transitions.map Transition.content).filter fun c => c.1 == name).map fun c =>
        c.2.2.count token).sum := by
  rw [leavingTokens, List.count_flatMap, List.filter_map, List.map_map]
  exact congrArg List.sum (List.map_congr_left fun t _ => (Multiset.coe_count token _).symm)

theorem count_leavingTokens_eq (h : Rearranged a b) (name token : String) :
    (a.leavingTokens name).count token = (b.leavingTokens name).count token := by
  rw [count_leavingTokens, count_leavingTokens]
  exact ((h.transitions.filter _).map _).sum_nat

theorem isComplete (h : Rearranged a b) (ha : a.IsComplete S) : b.IsComplete S where
  start := by
    rw [← ha.start]
    exact (h.states.filter State.starting).length_eq.symm
  ends := by
    intro t ht
    obtain ⟨u, hu, hsource, htarget, -⟩ := h.symm.exists_transition ht
    have hends := ha.ends u hu
    rw [← hsource, ← htarget, ← h.mem_names_iff, ← h.mem_names_iff]
    exact hends
  tokens_ne_nil := by
    intro t ht hnil
    obtain ⟨u, hu, -, -, htokens⟩ := h.symm.exists_transition ht
    rw [hnil] at htokens
    exact ha.tokens_ne_nil u hu htokens.eq_nil
  isSymbolToken := by
    intro t ht token htoken
    obtain ⟨u, hu, -, -, htokens⟩ := h.symm.exists_transition ht
    exact ha.isSymbolToken u hu token (htokens.mem_iff.2 htoken)
  count_leaving := by
    intro name hname c
    rw [← h.count_leavingTokens_eq]
    exact ha.count_leaving name ((h.mem_names_iff name).2 hname) c
  transitions_ne_nil := by
    intro hnil
    have hlength := h.transitions.length_eq
    rw [hnil, List.map_nil, List.length_nil, List.length_map] at hlength
    exact ha.transitions_ne_nil (List.eq_nil_of_length_eq_zero hlength)

theorem validate_eq (h : Rearranged a b) (ha : a.validate none = .ok S) :
    b.validate none = .ok S :=
  (validate_none_eq_ok_iff b S).2 (h.isComplete ((validate_none_eq_ok_iff a S).1 ha))

end Rearranged

/-! ## The first accepted word -/

theorem IsFirst.congr {P Q : List Char → Prop} (hPQ : ∀ v, P v ↔ Q v) {w : List Char}
    (h : IsFirst P w) : IsFirst Q w :=
  ⟨(hPQ w).1 h.holds, fun v hv => h.first v ((hPQ v).2 hv)⟩

theorem IsFirst.length_le {P : List Char → Prop} {v w : List Char} (h : IsFirst P w) (hv : P v) :
    w.length ≤ v.length := by
  rcases h.first v hv with rfl | hlt
  · exact Nat.le_refl _
  · exact BreadthFirst.length_le_of_shortlex hlt

theorem IsFirst.not_lex {P : List Char → Prop} {v w : List Char} (h : IsFirst P w) (hv : P v)
    (hlen : v.length = w.length) : ¬ List.Lex (· < ·) v w := by
  intro hlex
  rcases h.first v hv with rfl | hlt
  · exact List.lex_irrefl Char.lt_irrefl v hlex
  · exact Std.Asymm.asymm _ _ hlt (.of_lex hlen hlex)

/-- Complete deterministic automata that accept the same words have the same word found. -/
theorem IsComplete.witness?_eq {T : Alphabet} (ha : a.IsComplete S) (hb : b.IsComplete T)
    (h : ∀ w, a.verdict w = .accept ↔ b.verdict w = .accept) : a.witness? = b.witness? := by
  cases hva : a.witness? with
  | none =>
      rw [ha.witness?_eq_none_iff] at hva
      rw [eq_comm, hb.witness?_eq_none_iff]
      exact fun w hw => hva w ((h w).2 hw)
  | some v =>
      cases hvb : b.witness? with
      | none =>
          have hv := (ha.isFirst_of_witness? hva).holds
          exact absurd ((h v).1 hv) ((hb.witness?_eq_none_iff).1 hvb v)
      | some w =>
          rw [((ha.isFirst_of_witness? hva).congr h).unique (hb.isFirst_of_witness? hvb)]

/-- If a complete deterministic automaton accepts a word at all, the word found is accepted, no
accepted word is shorter, and none of the same length comes before it in the order of code points.
It does not depend on the order of states, transitions and tokens. -/
theorem witness?_least (h : a.validate none = .ok S) :
    ((∃ w, a.verdict w = .accept) → ∃ w, a.witness? = some w ∧ a.verdict w = .accept ∧
      ∀ v, a.verdict v = .accept →
        w.length ≤ v.length ∧ (v.length = w.length → ¬ List.Lex (· < ·) v w)) ∧
    ∀ b, a.Rearranged b → b.validate none = .ok S ∧ b.witness? = a.witness? := by
  have ha := (validate_none_eq_ok_iff a S).1 h
  refine ⟨fun hsome => ?_, fun b hab => ⟨hab.validate_eq h, ?_⟩⟩
  · obtain ⟨v, hv⟩ := hsome
    cases hw : a.witness? with
    | none => exact absurd hv (ha.witness?_eq_none_iff.1 hw v)
    | some w =>
        have hfirst := ha.isFirst_of_witness? hw
        exact ⟨w, rfl, hfirst.holds, fun v hv => ⟨hfirst.length_le hv, hfirst.not_lex hv⟩⟩
  · have hb := hab.isComplete ha
    refine hb.witness?_eq ha fun w => ?_
    rw [hb.verdict_eq_accept_iff, ha.verdict_eq_accept_iff, hab.mem_language_iff]

/-- Of the transitions and on their labels, those with the least symbols are written last. -/
def writtenBackwards : Automaton :=
  ofLists
    [⟨"D", false, true, none⟩, ⟨"C", false, false, none⟩, ⟨"B", false, false, none⟩,
     ⟨"A", true, false, none⟩]
    [⟨"A", "C", ⟨["c"]⟩⟩, ⟨"A", "B", ⟨["b", "a"]⟩⟩, ⟨"B", "D", ⟨["c", "b"]⟩⟩,
     ⟨"B", "B", ⟨["a"]⟩⟩, ⟨"C", "D", ⟨["c", "b", "a"]⟩⟩, ⟨"D", "D", ⟨["c", "b", "a"]⟩⟩]

/-- The same automaton in alphabetical order. -/
def writtenForwards : Automaton :=
  ofLists
    [⟨"A", true, false, none⟩, ⟨"B", false, false, none⟩, ⟨"C", false, false, none⟩,
     ⟨"D", false, true, none⟩]
    [⟨"A", "B", ⟨["a", "b"]⟩⟩, ⟨"A", "C", ⟨["c"]⟩⟩, ⟨"B", "B", ⟨["a"]⟩⟩,
     ⟨"B", "D", ⟨["b", "c"]⟩⟩, ⟨"C", "D", ⟨["a", "b", "c"]⟩⟩, ⟨"D", "D", ⟨["a", "b", "c"]⟩⟩]

/-- No word of length one is accepted, and many of length two are. The first of these is found,
however the automaton is written. -/
theorem witness?_writtenBackwards :
    writtenBackwards.validate none = .ok (Alphabet.ofList ['a', 'b', 'c']) ∧
      writtenBackwards.Rearranged writtenForwards ∧
      writtenBackwards.witness? = some ['a', 'b'] ∧ writtenForwards.witness? = some ['a', 'b'] ∧
      ∀ v, writtenBackwards.verdict v = .accept →
        2 ≤ v.length ∧ (v.length = 2 → ¬ List.Lex (· < ·) v ['a', 'b']) := by
  have hvalid : writtenBackwards.validate none = .ok (Alphabet.ofList ['a', 'b', 'c']) := by
    decide +kernel
  have haccept : writtenBackwards.verdict ['c', 'a'] = .accept := by decide +kernel
  have hword : writtenBackwards.witness? = some ['a', 'b'] := by cbv
  have hrearranged : writtenBackwards.Rearranged writtenForwards :=
    ⟨List.reverse_perm writtenForwards.states, by decide +kernel⟩
  obtain ⟨hfound, hsame⟩ := witness?_least hvalid
  obtain ⟨w, hw, -, hleast⟩ := hfound ⟨_, haccept⟩
  obtain rfl : w = ['a', 'b'] := Option.some.inj (hw.symm.trans hword)
  exact ⟨hvalid, hrearranged, hword, (hsame _ hrearranged).2.trans hword, hleast⟩

end Automaton

end FiniteState
