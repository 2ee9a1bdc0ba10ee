import FiniteState.Automaton.Path
import FiniteState.Proofs.Edges

/-!
# Paths as walks

A path of an automaton is a walk along the edges that its transitions make between existing
states. The states of all constructions are numbered, so a path is also a walk between the
positions of the states in their list, and a word is in the language of the automaton if
it leads from the position of a start state to that of an accepting one.
-/

namespace FiniteState

theorem singleton_injective : Function.Injective String.singleton := by
  intro c d h
  have hlist := congrArg String.toList h
  simpa using hlist

theorem singleton_epsilonChar : String.singleton epsilonChar = epsilonToken := by
  decide +kernel

theorem singleton_ne_epsilonToken {c : Char} (hc : c ≠ epsilonChar) :
    String.singleton c ≠ epsilonToken := by
  intro h
  rw [← singleton_epsilonChar] at h
  exact hc (singleton_injective h)

theorem symbolOf?_eq_some_iff (token : String) (c : Char) :
    symbolOf? token = some c ↔ c ≠ epsilonChar ∧ token = String.singleton c := by
  have hsingle : token = String.singleton c ↔ token.toList = [c] := by
    constructor
    · rintro rfl
      exact String.toList_singleton c
    · intro h
      exact String.toList_inj.1 (h.trans (String.toList_singleton c).symm)
  rw [hsingle, symbolOf?]
  split
  · next d hd =>
      rw [hd]
      by_cases hde : d = epsilonChar
      · simp only [hde, if_true, List.cons.injEq, and_true, reduceCtorEq, false_iff, not_and]
        exact fun hne heq => hne heq.symm
      · simp only [hde, if_false, Option.some.injEq, List.cons.injEq, and_true]
        exact ⟨fun h => ⟨h ▸ hde, h⟩, fun h => h.2⟩
  · next hnot =>
      simp only [reduceCtorEq, false_iff, not_and]
      exact fun _ h => hnot c h

namespace Label

theorem mem_symbols_iff (l : Label) (c : Char) :
    c ∈ l.symbols ↔ c ≠ epsilonChar ∧ String.singleton c ∈ l.tokens := by
  rw [mem_symbols]
  constructor
  · rintro ⟨token, hmem, htoken⟩
    obtain ⟨hc, rfl⟩ := (symbolOf?_eq_some_iff token c).1 htoken
    exact ⟨hc, hmem⟩
  · rintro ⟨hc, hmem⟩
    exact ⟨_, hmem, (symbolOf?_eq_some_iff _ c).2 ⟨hc, rfl⟩⟩

/-- What a label lets through, told by its symbols. -/
theorem mem_pieces_iff (l : Label) (v : List Char) :
    v ∈ l.pieces ↔ (v = [] ∧ l.hasEpsilon = true) ∨ ∃ c ∈ l.symbols, v = [c] := by
  have hpieces : v ∈ l.pieces ↔ (v = [] ∧ epsilonToken ∈ l.tokens) ∨
      ∃ c, v = [c] ∧ c ≠ epsilonChar ∧ String.singleton c ∈ l.tokens := Iff.rfl
  rw [hpieces, hasEpsilon, List.contains_iff_mem]
  simp only [mem_symbols_iff]
  constructor
  · rintro (h | ⟨c, hv, hc, hmem⟩)
    · exact .inl h
    · exact .inr ⟨c, ⟨hc, hmem⟩, hv⟩
  · rintro (h | ⟨c, ⟨hc, hmem⟩, hv⟩)
    · exact .inl h
    · exact .inr ⟨c, hv, hc, hmem⟩

end Label

/-! ## Automata from lists -/

theorem insertState_of_not_mem (s : State) (ts : List State)
    (h : ¬ s.name ∈ stateNames ts) : insertState s ts = ts ++ [s] := by
  induction ts with
  | nil => rfl
  | cons t ts ih =>
      rw [stateNames_cons, List.mem_cons, not_or] at h
      have hne : ¬ t.name = s.name := fun heq => h.1 heq.symm
      rw [insertState, if_neg hne, ih h.2, List.cons_append]

namespace Automaton

theorem states_foldl_insert (a : Automaton) (states : List State)
    (h : (a.names ++ stateNames states).Nodup) :
    (states.foldl insert a).states = a.states ++ states := by
  induction states generalizing a with
  | nil => simp
  | cons s states ih =>
      have hnot : ¬ s.name ∈ a.names := by
        intro hmem
        have hdisjoint := (List.nodup_append.1 h).2.2
        exact hdisjoint s.name hmem s.name List.mem_cons_self rfl
      have hstates : (a.insert s).states = a.states ++ [s] :=
        insertState_of_not_mem s a.states hnot
      have hnames : (a.insert s).names = a.names ++ [s.name] := by
        rw [names, hstates, stateNames, List.map_append]
        rfl
      rw [List.foldl_cons, ih, hstates, List.append_assoc]
      · rfl
      · rw [hnames, List.append_assoc]
        exact h

/-- States with different names are all kept. -/
theorem states_ofLists (states : List State) (transitions : List Transition)
    (h : (stateNames states).Nodup) : (ofLists states transitions).states = states := by
  have hfold := states_foldl_insert empty states (by simpa using h)
  have hnil : empty.states = [] := rfl
  rwa [hnil, List.nil_append] at hfold

@[simp] theorem transitions_ofLists (states : List State) (transitions : List Transition) :
    (ofLists states transitions).transitions = transitions := rfl

/-! ## Paths -/

/-- The edges between the existing states of an automaton. -/
def Edge (a : Automaton) (pieces : Label → Language Char) : Edges String := fun p v q =>
  p ∈ a.names ∧ q ∈ a.names ∧
    ∃ t ∈ a.transitions, t.source = p ∧ t.target = q ∧ v ∈ pieces t.label

variable {a : Automaton} {pieces : Label → Language Char}

theorem path_iff_leads (p : String) (w : List Char) (q : String) :
    Path a pieces p w q ↔ Leads (a.Edge pieces) p w q := by
  constructor
  · intro h
    induction h with
    | nil p => exact .nil p
    | cons ht hsource htarget hv _ ih =>
        exact .cons ⟨hsource, htarget, _, ht, rfl, rfl, hv⟩ ih
  · intro h
    induction h with
    | nil p => exact .nil p
    | cons he _ ih =>
        obtain ⟨hsource, htarget, t, ht, rfl, rfl, hv⟩ := he
        exact .cons ht hsource htarget hv ih

/-! ## Numbered states -/

theorem getElem?_names_eq_some_iff (a : Automaton) (i : Nat) (p : String) :
    a.names[i]? = some p ↔ ∃ s, a.states[i]? = some s ∧ s.name = p := by
  rw [names, stateNames, List.getElem?_map, Option.map_eq_some_iff]

theorem length_names (a : Automaton) : a.names.length = a.states.length :=
  List.length_map State.name

theorem names_getElem?_inj {i j : Nat} {p : String} (hi : a.names[i]? = some p)
    (hj : a.names[j]? = some p) : i = j := by
  obtain ⟨hlt, hi⟩ := List.getElem?_eq_some_iff.1 hi
  obtain ⟨hlt', hj⟩ := List.getElem?_eq_some_iff.1 hj
  exact (List.Nodup.getElem_inj_iff a.names_nodup).1 (hi.trans hj.symm)

theorem idxOf?_names_eq_some_iff (a : Automaton) (p : String) (i : Nat) :
    a.names.idxOf? p = some i ↔ a.names[i]? = some p := by
  rw [List.idxOf?_eq_some_iff, List.getElem?_eq_some_iff]
  constructor
  · rintro ⟨hlt, hp, -⟩
    exact ⟨hlt, hp⟩
  · rintro ⟨hlt, hp⟩
    refine ⟨hlt, hp, fun j hj hjp => ?_⟩
    have heq := (List.Nodup.getElem_inj_iff a.names_nodup).1 (hjp.trans hp.symm)
    omega

/-- The edges of an automaton between the positions of its states. -/
def NumberedEdge (a : Automaton) (pieces : Label → Language Char) : Edges Nat := fun i v j =>
  ∃ p q, a.names[i]? = some p ∧ a.names[j]? = some q ∧ a.Edge pieces p v q

theorem lt_of_numberedEdge {i j : Nat} {v : List Char} (h : a.NumberedEdge pieces i v j) :
    i < a.names.length ∧ j < a.names.length := by
  obtain ⟨p, q, hi, hj, -⟩ := h
  exact ⟨(List.getElem?_eq_some_iff.1 hi).1, (List.getElem?_eq_some_iff.1 hj).1⟩

theorem leads_numbered_iff {i j : Nat} {p q : String} (hi : a.names[i]? = some p)
    (hj : a.names[j]? = some q) (w : List Char) :
    Leads (a.NumberedEdge pieces) i w j ↔ Path a pieces p w q := by
  rw [path_iff_leads]
  constructor
  · intro h
    obtain ⟨q', hq', hw⟩ := Leads.simulate (R := fun i p => a.names[i]? = some p)
      (G := a.Edge pieces) (fun i p hi v j he => by
        obtain ⟨p', q', hp', hq', hpq⟩ := he
        rw [hi] at hp'
        cases hp'
        exact ⟨q', hq', hpq⟩) hi h
    rw [hj] at hq'
    cases hq'
    exact hw
  · intro h
    obtain ⟨j', hj', hw⟩ := Leads.simulate (R := fun p i => a.names[i]? = some p)
      (G := a.NumberedEdge pieces) (fun p i hi v q he => by
        obtain ⟨j, hlt, hj⟩ := List.getElem_of_mem he.2.1
        have hj' : a.names[j]? = some q := List.getElem?_eq_some_iff.2 ⟨hlt, hj⟩
        exact ⟨j, hj', p, q, hi, hj', he⟩) hi h
    exact names_getElem?_inj hj hj' ▸ hw

/-- The language of an automaton, told by the positions of its states. -/
theorem mem_languageOver_iff_numbered (a : Automaton) (pieces : Label → Language Char)
    (w : List Char) : w ∈ a.languageOver pieces ↔
      ∃ i s, a.states[i]? = some s ∧ s.starting = true ∧
        ∃ j u, a.states[j]? = some u ∧ u.accepting = true ∧
          Leads (a.NumberedEdge pieces) i w j := by
  have hname : ∀ {i : Nat} {s : State}, a.states[i]? = some s → a.names[i]? = some s.name :=
    fun h => (getElem?_names_eq_some_iff a _ _).2 ⟨_, h, rfl⟩
  rw [mem_languageOver]
  constructor
  · rintro ⟨s, hs, u, hu, hw⟩
    obtain ⟨hs, hstarting⟩ := List.mem_filter.1 hs
    obtain ⟨hu, haccepting⟩ := List.mem_filter.1 hu
    obtain ⟨i, hi⟩ := List.getElem?_of_mem hs
    obtain ⟨j, hj⟩ := List.getElem?_of_mem hu
    exact ⟨i, s, hi, hstarting, j, u, hj, haccepting,
      (leads_numbered_iff (hname hi) (hname hj) w).2 hw⟩
  · rintro ⟨i, s, hi, hstarting, j, u, hj, haccepting, hw⟩
    exact ⟨s, List.mem_filter.2 ⟨List.mem_of_getElem? hi, hstarting⟩, u,
      List.mem_filter.2 ⟨List.mem_of_getElem? hj, haccepting⟩,
      (leads_numbered_iff (hname hi) (hname hj) w).1 hw⟩

end Automaton

end FiniteState
