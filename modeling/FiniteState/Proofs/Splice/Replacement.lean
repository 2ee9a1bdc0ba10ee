import FiniteState.Automaton.Pattern
import FiniteState.Proofs.Splice.Names

/-!
# One expression in place of a transition

The transitions of a graph are taken one by one. What has been built so far, with its labels of
symbols, and the transitions that are left, with their patterns, make a graph of both kinds of
edges. One step of the construction replaces an edge of this graph by a detour through states
that it does not have yet, so between the states of the original graph the same words lead on
before and after the step.
-/

namespace FiniteState

namespace Automaton

open Net (stateName)

variable {pieces : Label → Language Char}

/-! ## The edges of a list of transitions -/

/-- The edges that transitions make, whether or not the states that they name exist. -/
def EdgeOf (pieces : Label → Language Char) (ts : List Transition) : Edges String := fun p v q =>
  ∃ t ∈ ts, t.source = p ∧ t.target = q ∧ v ∈ pieces t.label

theorem edgeOf_nil (p : String) (v : List Char) (q : String) : ¬ EdgeOf pieces [] p v q := by
  rintro ⟨t, ht, -⟩
  cases ht

theorem edgeOf_append (ts us : List Transition) (p : String) (v : List Char) (q : String) :
    EdgeOf pieces (ts ++ us) p v q ↔ EdgeOf pieces ts p v q ∨ EdgeOf pieces us p v q := by
  simp only [EdgeOf, List.mem_append, or_and_right, exists_or]

theorem edgeOf_cons (t : Transition) (ts : List Transition) (p : String) (v : List Char)
    (q : String) : EdgeOf pieces (t :: ts) p v q ↔
      (p = t.source ∧ v ∈ pieces t.label ∧ q = t.target) ∨ EdgeOf pieces ts p v q := by
  simp only [EdgeOf, List.mem_cons, or_and_right, exists_or, exists_eq_left]
  refine or_congr_left ?_
  constructor
  · rintro ⟨rfl, rfl, hv⟩
    exact ⟨rfl, hv, rfl⟩
  · rintro ⟨rfl, hv, rfl⟩
    exact ⟨rfl, rfl, hv⟩

/-- No edge of the automaton leads from or to a state that does not exist. -/
def Joined (a : Automaton) (pieces : Label → Language Char) : Prop :=
  ∀ p v q, EdgeOf pieces a.transitions p v q → p ∈ a.names ∧ q ∈ a.names

theorem Joined.path_iff {a : Automaton} (h : a.Joined pieces) (p : String) (w : List Char)
    (q : String) : Path a pieces p w q ↔ Leads (EdgeOf pieces a.transitions) p w q := by
  rw [path_iff_leads]
  refine Leads.congr fun p v q => ⟨fun he => he.2.2, fun he => ?_⟩
  exact ⟨(h p v q he).1, (h p v q he).2, he⟩

theorem mem_names_toAutomaton {r : Regex} {stem name : String}
    (h : name ∈ (r.toAutomaton stem).names) : ∃ k, name = stateName stem k := by
  obtain ⟨k, hk⟩ := List.getElem?_of_mem h
  exact ⟨k, ((Net.getElem?_names_automaton _ _ _ k name).1 hk).2⟩

theorem joined_toAutomaton (r : Regex) (stem : String) :
    (r.toAutomaton stem).Joined Label.pieces := by
  rintro p v q ⟨t, ht, rfl, rfl, hv⟩
  obtain ⟨arc, harc, rfl⟩ := List.mem_map.1 ht
  have hbounded := (Regex.realises_addTo r Net.bounded_empty).bounded
  have hlt := hbounded arc.source v arc.target ⟨arc, harc, rfl, rfl, hv⟩
  have hname : ∀ k < r.net.2.size, stateName stem k ∈ (r.toAutomaton stem).names := fun k hk =>
    List.mem_of_getElem? ((Net.getElem?_names_automaton _ stem r.net.1 k _).2 ⟨hk, rfl⟩)
  exact ⟨hname _ hlt.1, hname _ hlt.2⟩

/-! ## Adding the states of another automaton -/

/-- A state that neither starts nor accepts. -/
def innerState (s : State) : State := ⟨s.name, false, false, none⟩

theorem addInner_eq_foldl (a b : Automaton) :
    a.addInner b = (b.states.map innerState).foldl insert a :=
  List.foldl_map.symm

theorem transitions_addInner (a b : Automaton) :
    (a.addInner b).transitions = a.transitions := by
  rw [addInner_eq_foldl]
  induction b.states.map innerState generalizing a with
  | nil => rfl
  | cons s states ih => exact ih (a.insert s)

theorem stateNames_map_innerState (states : List State) :
    stateNames (states.map innerState) = stateNames states := by
  rw [stateNames, List.map_map]
  rfl

section

variable {a b : Automaton} (h : ∀ name ∈ b.names, name ∉ a.names)

include h

theorem states_addInner : (a.addInner b).states = a.states ++ b.states.map innerState := by
  rw [addInner_eq_foldl, states_foldl_insert]
  rw [stateNames_map_innerState]
  refine List.nodup_append.2 ⟨a.nodup, b.nodup, fun p hp q hq heq => ?_⟩
  exact h q hq (heq ▸ hp)

theorem names_addInner : (a.addInner b).names = a.names ++ b.names := by
  rw [names, states_addInner h, stateNames, List.map_append]
  exact congrArg (a.names ++ ·) (stateNames_map_innerState b.states)

theorem starts_addInner : (a.addInner b).starts = a.starts := by
  have hnone : (b.states.map innerState).filter State.starting = [] := by
    simp [List.filter_eq_nil_iff, innerState]
  rw [starts, states_addInner h, List.filter_append, hnone, List.append_nil]
  rfl

theorem acceptings_addInner : (a.addInner b).acceptings = a.acceptings := by
  have hnone : (b.states.map innerState).filter State.accepting = [] := by
    simp [List.filter_eq_nil_iff, innerState]
  rw [acceptings, states_addInner h, List.filter_append, hnone, List.append_nil]
  rfl

end

/-! ## Replacing one transition -/

/-- `a` with the states of `b` and the transitions that replace one from `source` to `target`. -/
def spliceIn (a b : Automaton) (source target : String) : Automaton :=
  { a.addInner b with
    transitions := (a.addInner b).transitions ++ spliceTransitions b source target }

/-- The name is that of a start state. -/
def Starting (a : Automaton) (name : String) : Prop := ∃ s ∈ a.starts, s.name = name

/-- The name is that of an accepting state. -/
def Accepting (a : Automaton) (name : String) : Prop := ∃ s ∈ a.acceptings, s.name = name

theorem mem_pieces_epsilon (v : List Char) : v ∈ Label.epsilon.pieces ↔ v = [] := by
  rw [Label.mem_pieces_iff]
  simp

theorem edgeOf_map_epsilon {states : List State} {f : State → Transition}
    (hlabel : ∀ s, (f s).label = Label.epsilon) (p : String) (v : List Char) (q : String) :
    EdgeOf Label.pieces (states.map f) p v q ↔
      v = [] ∧ ∃ s ∈ states, (f s).source = p ∧ (f s).target = q := by
  constructor
  · rintro ⟨t, ht, hsource, htarget, hv⟩
    obtain ⟨s, hs, rfl⟩ := List.mem_map.1 ht
    rw [hlabel, mem_pieces_epsilon] at hv
    exact ⟨hv, s, hs, hsource, htarget⟩
  · rintro ⟨rfl, s, hs, hsource, htarget⟩
    refine ⟨f s, List.mem_map_of_mem hs, hsource, htarget, ?_⟩
    rw [hlabel, mem_pieces_epsilon]

theorem edgeOf_spliceTransitions (b : Automaton) (source target p : String) (v : List Char)
    (q : String) : EdgeOf Label.pieces (spliceTransitions b source target) p v q ↔
      EdgeOf Label.pieces b.transitions p v q ∨ (p = source ∧ v = [] ∧ b.Starting q) ∨
        (b.Accepting p ∧ v = [] ∧ q = target) := by
  rw [spliceTransitions, edgeOf_append, edgeOf_append, edgeOf_map_epsilon fun _ => rfl,
    edgeOf_map_epsilon fun _ => rfl]
  constructor
  · rintro (⟨hv, s, hs, hsource, htarget⟩ | ⟨hv, s, hs, hsource, htarget⟩ | he)
    · exact .inr (.inl ⟨hsource.symm, hv, s, hs, htarget⟩)
    · exact .inr (.inr ⟨⟨s, hs, hsource⟩, hv, htarget.symm⟩)
    · exact .inl he
  · rintro (he | ⟨hsource, hv, s, hs, htarget⟩ | ⟨⟨s, hs, hsource⟩, hv, htarget⟩)
    · exact .inr (.inr he)
    · exact .inl ⟨hv, s, hs, hsource.symm, htarget⟩
    · exact .inr (.inl ⟨hv, s, hs, hsource, htarget.symm⟩)

/-- The words that lead through an automaton are its language. -/
theorem Joined.through_eq {b : Automaton} (h : b.Joined Label.pieces) :
    Leads.through (EdgeOf Label.pieces b.transitions) b.Starting b.Accepting = b.language := by
  ext w
  rw [language, mem_languageOver]
  constructor
  · rintro ⟨x, y, ⟨s, hs, rfl⟩, ⟨u, hu, rfl⟩, hw⟩
    exact ⟨s, hs, u, hu, (h.path_iff _ w _).2 hw⟩
  · rintro ⟨s, hs, u, hu, hw⟩
    exact ⟨s.name, u.name, ⟨s, hs, rfl⟩, ⟨u, hu, rfl⟩, (h.path_iff _ w _).1 hw⟩

/-- The edges of the transitions that are done and of those that are left. -/
def Mixed (alphabet : Option Alphabet) (done rest : List Transition) : Edges String :=
  fun p v q => EdgeOf Label.pieces done p v q ∨
    EdgeOf (Label.patternPieces alphabet) rest p v q

/-- To keep a transition that lists symbols changes no walk. -/
theorem leads_mixed_keep {alphabet : Option Alphabet} {t : Transition}
    (hplain : t.label.isPlain alphabet = true) (built : Automaton) (ts : List Transition)
    (p : String) (w : List Char) (q : String) :
    Leads (Mixed alphabet (built.transitions ++ [t]) ts) p w q ↔
      Leads (Mixed alphabet built.transitions (t :: ts)) p w q := by
  refine Leads.congr fun p v q => ?_
  rw [Mixed, Mixed, edgeOf_append, edgeOf_cons, edgeOf_cons,
    Label.mem_patternPieces_of_isPlain alphabet t.label hplain, or_iff_left (edgeOf_nil p v q),
    or_assoc]

theorem Starting.mem_names {a : Automaton} {name : String} (h : a.Starting name) :
    name ∈ a.names := by
  obtain ⟨s, hs, rfl⟩ := h
  exact List.mem_map_of_mem (List.mem_filter.1 hs).1

theorem Accepting.mem_names {a : Automaton} {name : String} (h : a.Accepting name) :
    name ∈ a.names := by
  obtain ⟨s, hs, rfl⟩ := h
  exact List.mem_map_of_mem (List.mem_filter.1 hs).1

theorem transitions_spliceIn (built b : Automaton) (source target : String) :
    (built.spliceIn b source target).transitions =
      built.transitions ++ spliceTransitions b source target :=
  congrArg (· ++ spliceTransitions b source target) (transitions_addInner built b)

/-- The transitions that replace a transition are a detour through the new states. -/
theorem detour_spliceIn {built b : Automaton} (alphabet : Option Alphabet)
    {ts : List Transition} {source target : String} (hbuilt : built.Joined Label.pieces)
    (hb : b.Joined Label.pieces) (hnew : ∀ name ∈ b.names, name ∉ built.names)
    (hts : ∀ t ∈ ts, t.source ∈ built.names ∧ t.target ∈ built.names)
    (hsource : source ∈ built.names) (htarget : target ∈ built.names) :
    Leads.Detour (Mixed alphabet built.transitions ts) (EdgeOf Label.pieces b.transitions)
      (Mixed alphabet (built.spliceIn b source target).transitions ts) (· ∈ b.names) b.Starting
      b.Accepting source target where
  outside := by
    rintro p v q (he | ⟨t, ht, rfl, rfl, -⟩)
    · obtain ⟨hp, hq⟩ := hbuilt p v q he
      exact ⟨fun h => hnew p h hp, fun h => hnew q h hq⟩
    · exact ⟨fun h => hnew _ h (hts t ht).1, fun h => hnew _ h (hts t ht).2⟩
  inside := hb _ _ _
  entry := Starting.mem_names
  exit := Accepting.mem_names
  ends := ⟨fun h => hnew _ h hsource, fun h => hnew _ h htarget⟩
  edge_iff := by
    intro p v q
    rw [Mixed, Mixed, transitions_spliceIn, edgeOf_append, edgeOf_spliceTransitions]
    exact or_right_comm

/-! ## Replacing all transitions -/

/-- What holds of the automaton in the making before the transition with the number `i`. -/
structure Partial (names : List String) (i : Nat) (built : Automaton) : Prop where
  old : ∀ name ∈ names, name ∈ built.names
  new : ∀ name ∈ built.names, name ∈ names ∨
    ∃ j < i, ∃ k, name = stateName (stemFor names j) k
  joined : built.Joined Label.pieces

namespace Partial

variable {names : List String} {i : Nat} {built : Automaton}

theorem new_succ (h : Partial names i built) {name : String} (hname : name ∈ built.names) :
    name ∈ names ∨ ∃ j < i + 1, ∃ k, name = stateName (stemFor names j) k := by
  rcases h.new name hname with hold | ⟨j, hj, k, hk⟩
  · exact .inl hold
  · exact .inr ⟨j, Nat.lt_succ_of_lt hj, k, hk⟩

/-- A transition may be passed over. -/
theorem succ (h : Partial names i built) : Partial names (i + 1) built :=
  ⟨h.old, fun _ => h.new_succ, h.joined⟩

/-- A transition between states of the graph may be kept. -/
theorem keep (h : Partial names i built) {t : Transition} (hsource : t.source ∈ names)
    (htarget : t.target ∈ names) :
    Partial names (i + 1) { built with transitions := built.transitions ++ [t] } where
  old := h.old
  new _ := h.new_succ
  joined := by
    intro p v q he
    rcases (edgeOf_append _ _ p v q).1 he with he | ⟨u, hu, rfl, rfl, -⟩
    · exact h.joined p v q he
    · obtain rfl := List.mem_singleton.1 hu
      exact ⟨h.old _ hsource, h.old _ htarget⟩

/-- The states of the next expression are new. -/
theorem fresh (h : Partial names i built) (r : Regex) :
    ∀ name ∈ (r.toAutomaton (stemFor names i)).names, name ∉ built.names := by
  intro name hname hmem
  obtain ⟨k, rfl⟩ := mem_names_toAutomaton hname
  rcases h.new _ hmem with hold | ⟨j, hj, l, hl⟩
  · exact stateName_not_mem names i k hold
  · have heq := eq_of_stateName_eq hl
    omega

/-- A transition between states of the graph may be replaced. -/
theorem splice (h : Partial names i built) (r : Regex) {source target : String}
    (hsource : source ∈ names) (htarget : target ∈ names) :
    Partial names (i + 1)
      (built.spliceIn (r.toAutomaton (stemFor names i)) source target) := by
  have hnames := names_addInner (h.fresh r)
  have hmem : ∀ name, name ∈ (built.spliceIn (r.toAutomaton (stemFor names i)) source
      target).names ↔ name ∈ built.names ∨ name ∈ (r.toAutomaton (stemFor names i)).names :=
    fun name => by rw [← List.mem_append, ← hnames]; rfl
  refine ⟨fun name hname => (hmem name).2 (.inl (h.old name hname)), ?_, ?_⟩
  · intro name hname
    rcases (hmem name).1 hname with hname | hname
    · exact h.new_succ hname
    · obtain ⟨k, hk⟩ := mem_names_toAutomaton hname
      exact .inr ⟨i, Nat.lt_succ_self i, k, hk⟩
  · intro p v q he
    rw [transitions_spliceIn, edgeOf_append, edgeOf_spliceTransitions] at he
    rw [hmem, hmem]
    rcases he with he | he | ⟨rfl, -, hq⟩ | ⟨hp, -, rfl⟩
    · exact ⟨.inl (h.joined p v q he).1, .inl (h.joined p v q he).2⟩
    · have hinner := joined_toAutomaton r _ p v q he
      exact ⟨.inr hinner.1, .inr hinner.2⟩
    · exact ⟨.inl (h.old p hsource), .inr hq.mem_names⟩
    · exact ⟨.inr hp.mem_names, .inl (h.old q htarget)⟩

/-- To replace a transition by the automaton of its expression changes no walk between states of
the graph. -/
theorem leads_splice (h : Partial names i built) {alphabet : Option Alphabet} {t : Transition}
    {ts : List Transition} (hts : ∀ u ∈ t :: ts, u.source ∈ names ∧ u.target ∈ names)
    (hplain : t.label.isPlain alphabet = false) {r : Regex}
    (hr : Regex.parse t.label.source = .ok r) {p q : String} (hp : p ∈ names) (hq : q ∈ names)
    (w : List Char) :
    Leads (Mixed alphabet (built.spliceIn (r.toAutomaton (stemFor names i)) t.source
        t.target).transitions ts) p w q ↔
      Leads (Mixed alphabet built.transitions (t :: ts)) p w q := by
  have hfresh := h.fresh r
  have hinner := joined_toAutomaton r (stemFor names i)
  have hold : ∀ u ∈ t :: ts, u.source ∈ built.names ∧ u.target ∈ built.names := fun u hu =>
    ⟨h.old _ (hts u hu).1, h.old _ (hts u hu).2⟩
  have hdetour := detour_spliceIn alphabet h.joined hinner hfresh
    (fun u hu => hold u (List.mem_cons_of_mem t hu)) (hold t List.mem_cons_self).1
    (hold t List.mem_cons_self).2
  refine hdetour.leads_iff (fun p v q => ?_) (fun hin => hfresh p hin (h.old p hp))
    (fun hin => hfresh q hin (h.old q hq))
  rw [Mixed, Mixed, edgeOf_cons, hinner.through_eq, Regex.language_toAutomaton,
    Label.mem_patternPieces_of_parse alphabet t.label hplain r hr, or_assoc]
  exact or_congr_right or_comm

end Partial

/-! ## The construction, step by step -/

section

variable {names : List String} {alphabet : Option Alphabet} {t : Transition}

theorem spliceFrom_cons_of_isPlain (h : t.label.isPlain alphabet = true) (i : Nat)
    (built : Automaton) (ts : List Transition) :
    spliceFrom names alphabet i built (t :: ts) = spliceFrom names alphabet (i + 1)
      { built with transitions := built.transitions ++ [t] } ts := by
  rw [spliceFrom, inner?, if_pos h]

theorem spliceFrom_cons_of_parse (h : t.label.isPlain alphabet = false) {r : Regex}
    (hr : Regex.parse t.label.source = .ok r) (i : Nat) (built : Automaton)
    (ts : List Transition) :
    spliceFrom names alphabet i built (t :: ts) = spliceFrom names alphabet (i + 1)
      (built.spliceIn (r.toAutomaton (stemFor names i)) t.source t.target) ts := by
  rw [spliceFrom, inner?, if_neg (ne_true_of_eq_false h), expression, hr]
  rfl

theorem spliceFrom_cons_of_error (h : t.label.isPlain alphabet = false) {e : Regex.ParseError}
    (hr : Regex.parse t.label.source = .error e) (i : Nat) (built : Automaton)
    (ts : List Transition) : spliceFrom names alphabet i built (t :: ts) =
      .error ⟨t.source, t.target, t.label.source, e⟩ := by
  rw [spliceFrom, inner?, if_neg (ne_true_of_eq_false h), expression, hr]

end

end Automaton

end FiniteState
