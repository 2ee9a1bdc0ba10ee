import FiniteState.Proofs.Automaton.Compare

/-!
# Complements

An automaton accepts in the states in which its complement does not, and otherwise they are the
same. So a complete deterministic automaton and its complement say the opposite of all words over
the alphabet, and both crash on the others. The complement is taken over the symbols of one
automaton, while a combination is over those of two: laws that mix them hold as long as no word
that counts is over the one alphabet and not over the other.
-/

namespace FiniteState

/-- What the complement says. Where a word cannot be read, there is no opposite. -/
def Verdict.opposite : Verdict → Verdict
  | .accept => .reject
  | .reject => .accept
  | .crash => .crash

namespace Automaton

variable {a b : Automaton} {S T : Alphabet}

/-! ## The complement -/

theorem states_invert (a : Automaton) :
    a.invert.states = a.states.map fun s => { s with accepting := !s.accepting } := rfl

theorem length_starts_invert (a : Automaton) : a.invert.starts.length = a.starts.length := by
  rw [starts, starts, states_invert, List.filter_map, List.length_map]
  rfl

theorem targetOf_invert (a : Automaton) (name : String) (c : Char) :
    a.invert.targetOf name c = a.targetOf name c := by
  rw [targetOf, targetOf, names_invert]
  rfl

theorem start_tableOver_invert (a : Automaton) (S : Alphabet) :
    (a.invert.tableOver S).start = (a.tableOver S).start :=
  List.findIdx_map _ _ _

theorem next_tableOver_invert (a : Automaton) (S : Alphabet) (i : Nat) :
    (a.invert.tableOver S).next i = (a.tableOver S).next i := by
  rw [Table.next, Table.next, getElem?_rows_tableOver, getElem?_rows_tableOver, states_invert,
    List.getElem?_map]
  cases a.states[i]? with
  | none => rfl
  | some s => simp [targetOf_invert]

theorem accepting_tableOver_invert (S : Alphabet) {i : Nat} (hi : i < a.states.length) :
    (a.invert.tableOver S).accepting i = !(a.tableOver S).accepting i := by
  have hs := List.getElem?_eq_getElem hi
  have hs' : a.invert.states[i]? =
      some { a.states[i] with accepting := !a.states[i].accepting } := by
    rw [states_invert, List.getElem?_map, hs]
    rfl
  rw [accepting_tableOver a S hs, accepting_tableOver a.invert S hs']

theorem run?_tableOver_invert (a : Automaton) (S : Alphabet) (i : Nat) (w : List Char) :
    (a.invert.tableOver S).run? i w = (a.tableOver S).run? i w := by
  induction w generalizing i with
  | nil => rfl
  | cons c w ih =>
      have hstep : (a.invert.tableOver S).step? i c = (a.tableOver S).step? i c := by
        rw [Table.step?, Table.step?, next_tableOver_invert]
        rfl
      rw [Table.run?_cons, Table.run?_cons, hstep]
      simp only [ih]

namespace IsComplete

/-- The complement is complete over the same alphabet. -/
theorem invert (h : a.IsComplete S) : a.invert.IsComplete S where
  start := by
    rw [length_starts_invert]
    exact h.start
  ends := by
    rw [names_invert]
    exact h.ends
  tokens_ne_nil := h.tokens_ne_nil
  isSymbolToken := h.isSymbolToken
  count_leaving := by
    rw [names_invert]
    exact h.count_leaving
  transitions_ne_nil := h.transitions_ne_nil

theorem verdict_invert (h : a.IsComplete S) (w : List Char) :
    a.invert.verdict w = (a.verdict w).opposite := by
  rw [h.invert.verdict_eq, h.verdict_eq, Table.verdict, Table.verdict, start_tableOver_invert,
    run?_tableOver_invert]
  cases hw : (a.tableOver S).run? (a.tableOver S).start w with
  | none => rfl
  | some last =>
      have hlt := h.valid_tableOver.lt_of_run? h.valid_tableOver.start_lt hw
      rw [size_tableOver] at hlt
      simp only [accepting_tableOver_invert S hlt]
      cases (a.tableOver S).accepting last <;> rfl

/-- Over its alphabet, the complement accepts the words that the automaton does not. -/
theorem verdict_invert_eq_accept_iff (h : a.IsComplete S) {w : List Char} (hw : ∀ c ∈ w, c ∈ S) :
    a.invert.verdict w = .accept ↔ ¬ a.verdict w = .accept := by
  have hread : ¬ a.verdict w = .crash := by
    rw [h.verdict_eq_crash_iff]
    rintro ⟨c, hc, hnot⟩
    exact hnot (hw c hc)
  rw [h.verdict_invert]
  cases hverdict : a.verdict w with
  | accept => simp [Verdict.opposite]
  | reject => simp [Verdict.opposite]
  | crash => exact absurd hverdict hread

/-! ## Laws -/

/-- Words that are over the alphabet are enough to see that automata are equivalent. -/
theorem equivalent_of_accept_iff (ha : a.IsComplete S) (hb : b.IsComplete S)
    (h : ∀ w, (∀ c ∈ w, c ∈ S) → (a.verdict w = .accept ↔ b.verdict w = .accept)) :
    a.equivalent b = .ok true := by
  obtain ⟨e, he, hiff⟩ := ha.exists_equivalent hb
  have hsame : ∀ w, a.verdict w = b.verdict w := by
    intro w
    apply ha.verdict_eq_of_accept_iff hb
    by_cases hw : ∀ c ∈ w, c ∈ S
    · exact h w hw
    · exact iff_of_false (fun haccept => hw (ha.mem_of_accept haccept))
        fun haccept => hw (hb.mem_of_accept haccept)
  rw [he, hiff.2 ⟨rfl, hsame⟩]

/-- An automaton and its complement have no word in common. -/
theorem exists_combine_invert (h : a.IsComplete S) :
    ∃ c, a.combine a.invert BoolOp.and.apply = .ok c ∧ c.isEmpty = true := by
  obtain ⟨c, hc, hcomplete, haccept⟩ := h.exists_combine_accept h.invert BoolOp.and.apply
  refine ⟨c, hc, ?_⟩
  rw [isEmpty_iff, hcomplete.witness?_eq_none_iff]
  intro w hw
  have hboth := (haccept w (hcomplete.mem_of_accept hw)).1 hw
  simp only [BoolOp.apply, Bool.and_eq_true, decide_eq_true_iff] at hboth
  have hopposite := h.verdict_invert w
  rw [hboth.1, hboth.2] at hopposite
  cases hopposite

/-- The complement of an intersection is the union of the complements. -/
theorem exists_invert_combine (ha : a.IsComplete S) (hb : b.IsComplete S) :
    ∃ c d, a.combine b BoolOp.and.apply = .ok c ∧
      a.invert.combine b.invert BoolOp.or.apply = .ok d ∧ c.invert.equivalent d = .ok true := by
  obtain ⟨c, hc, hcc, hcv⟩ := ha.exists_combine_accept hb BoolOp.and.apply
  obtain ⟨d, hd, hdc, hdv⟩ := ha.invert.exists_combine_accept hb.invert BoolOp.or.apply
  refine ⟨c, d, hc, hd, hcc.invert.equivalent_of_accept_iff hdc fun w hw => ?_⟩
  have hwS : ∀ c ∈ w, c ∈ S := fun c hc => by simpa using hw c hc
  rw [hcc.verdict_invert_eq_accept_iff hw, hcv w hw, hdv w hw]
  simp only [BoolOp.apply, Bool.and_eq_true, Bool.or_eq_true, decide_eq_true_iff,
    ha.verdict_invert_eq_accept_iff hwS, hb.verdict_invert_eq_accept_iff hwS]
  exact not_and_or

/-- A difference is an intersection with a complement, if all that is accepted on the left can be
read on the right. -/
theorem exists_combine_minus (ha : a.IsComplete S) (hb : b.IsComplete T)
    (hST : ∀ c ∈ S, c ∈ T) : ∃ c d, a.combine b BoolOp.minus.apply = .ok c ∧
      a.combine b.invert BoolOp.and.apply = .ok d ∧ c.equivalent d = .ok true := by
  obtain ⟨c, hc, hcc, hcv⟩ := ha.exists_combine_accept hb BoolOp.minus.apply
  obtain ⟨d, hd, hdc, hdv⟩ := ha.exists_combine_accept hb.invert BoolOp.and.apply
  refine ⟨c, d, hc, hd, hcc.equivalent_of_accept_iff hdc fun w hw => ?_⟩
  have hwT : ∀ c ∈ w, c ∈ T := by
    intro c hc
    rcases (Alphabet.mem_union S T c).1 (hw c hc) with h | h
    · exact h
    · exact hST c h
  rw [hcv w hw, hdv w hw]
  simp [BoolOp.apply, hb.verdict_invert_eq_accept_iff hwT]

end IsComplete

/-- The complement of a complete deterministic automaton is complete and deterministic over the
same alphabet, says the opposite of every word, and has no accepted word in common with it. Over
one alphabet, the complement of an intersection is equivalent to the union of the complements. If
the alphabet on the left is part of the one on the right, a difference is equivalent to the
intersection with the complement of the right side. -/
theorem invert_laws (ha : a.validate none = .ok S) (hb : b.validate none = .ok T) :
    (a.invert.validate none = .ok S ∧ (∀ w, a.invert.verdict w = (a.verdict w).opposite) ∧
      ∃ c, a.combine a.invert BoolOp.and.apply = .ok c ∧ c.isEmpty = true) ∧
    (S = T → ∃ c d, a.combine b BoolOp.and.apply = .ok c ∧
      a.invert.combine b.invert BoolOp.or.apply = .ok d ∧ c.invert.equivalent d = .ok true) ∧
    ((∀ c ∈ S, c ∈ T) → ∃ c d, a.combine b BoolOp.minus.apply = .ok c ∧
      a.combine b.invert BoolOp.and.apply = .ok d ∧ c.equivalent d = .ok true) := by
  have hac := (validate_none_eq_ok_iff a S).1 ha
  have hbc := (validate_none_eq_ok_iff b T).1 hb
  refine ⟨⟨?_, hac.verdict_invert, hac.exists_combine_invert⟩, fun heq => ?_,
    hac.exists_combine_minus hbc⟩
  · exact (validate_none_eq_ok_iff a.invert S).2 hac.invert
  · exact hac.exists_invert_combine (heq ▸ hbc)

/-- Accepts the words of odd length over one symbol. -/
def oddLength : Automaton :=
  ofLists [⟨"even", true, false, none⟩, ⟨"odd", false, true, none⟩]
    [⟨"even", "odd", ⟨["a"]⟩⟩, ⟨"odd", "even", ⟨["a"]⟩⟩]

/-- Accepts the words over the same symbol that are not empty. -/
def someSymbol : Automaton :=
  ofLists [⟨"none", true, false, none⟩, ⟨"some", false, true, none⟩]
    [⟨"none", "some", ⟨["a"]⟩⟩, ⟨"some", "some", ⟨["a"]⟩⟩]

/-- Accepts the words over two symbols that end in the second. -/
def lastSymbol : Automaton :=
  ofLists [⟨"no", true, false, none⟩, ⟨"yes", false, true, none⟩]
    [⟨"no", "no", ⟨["a"]⟩⟩, ⟨"no", "yes", ⟨["b"]⟩⟩, ⟨"yes", "no", ⟨["a"]⟩⟩,
     ⟨"yes", "yes", ⟨["b"]⟩⟩]

/-- The laws over one alphabet, and over a part of another. -/
theorem invert_laws_oddLength :
    oddLength.validate none = .ok (Alphabet.ofList ['a']) ∧
    someSymbol.validate none = .ok (Alphabet.ofList ['a']) ∧
    lastSymbol.validate none = .ok (Alphabet.ofList ['a', 'b']) ∧
    (∃ c, oddLength.combine oddLength.invert BoolOp.and.apply = .ok c ∧ c.isEmpty = true) ∧
    (∃ c d, oddLength.combine someSymbol BoolOp.and.apply = .ok c ∧
      oddLength.invert.combine someSymbol.invert BoolOp.or.apply = .ok d ∧
      c.invert.equivalent d = .ok true) ∧
    ∃ c d, oddLength.combine lastSymbol BoolOp.minus.apply = .ok c ∧
      oddLength.combine lastSymbol.invert BoolOp.and.apply = .ok d ∧ c.equivalent d = .ok true := by
  have hodd : oddLength.validate none = .ok (Alphabet.ofList ['a']) := by decide +kernel
  have hsome : someSymbol.validate none = .ok (Alphabet.ofList ['a']) := by decide +kernel
  have hlast : lastSymbol.validate none = .ok (Alphabet.ofList ['a', 'b']) := by decide +kernel
  have hincluded : ∀ c ∈ Alphabet.ofList ['a'], c ∈ Alphabet.ofList ['a', 'b'] := by
    intro c hc
    rw [Alphabet.mem_ofList] at hc ⊢
    exact List.mem_append_left ['b'] hc
  obtain ⟨⟨-, -, hempty⟩, hsame, -⟩ := invert_laws hodd hsome
  obtain ⟨-, -, hpart⟩ := invert_laws hodd hlast
  exact ⟨hodd, hsome, hlast, hempty, hsame rfl, hpart hincluded⟩

end Automaton

end FiniteState
