import FiniteState.Document
import FiniteState.Proofs.Automaton.Simulation
import FiniteState.Proofs.Json.Value
import FiniteState.Proofs.Label

/-!
# Documents that are read back

Every document is read back from its text, as long as its numbers are. What an automaton loses
on the way through a document can only be lost in its labels, which become texts: the main
statement says that the states and the ends of the transitions are always kept, and the
automaton as a whole if and only if its labels could have been read from texts.
-/

namespace FiniteState

/-- The position is read back from its text. -/
def Position.Faithful (p : Position) : Prop := Json.Faithful p.x ∧ Json.Faithful p.y

/-- All positions of the states are read back from their texts. -/
def FaithfulStates (states : List State) : Prop :=
  ∀ s ∈ states, ∀ p, s.position = some p → p.Faithful

namespace Document

open Json

theorem reads_position {p : Position} (h : p.Faithful) :
    Reads position (positionValue p) p := by
  have hx := entered_of_find? positionFields "x"
    (fun x (q : Position) => { q with x := x }) rfl (reads_number h.1)
  have hy := entered_of_find? positionFields "y"
    (fun y (q : Position) => { q with y := y }) rfl (reads_number h.2)
  exact reads_record (.cons hx (.cons hy .nil)) (by simp) (by simp [positionFields]) noPosition

theorem reads_state {s : State} (h : ∀ p, s.position = some p → p.Faithful) :
    Reads (record stateFields false plainState) (stateValue s) s := by
  have hname := entered_of_find? stateFields "name"
    (fun name (t : State) => { t with name := name }) rfl (reads_string s.name)
  have haccepting := entered_of_find? stateFields "accepting"
    (fun accepting (t : State) => { t with accepting := accepting }) rfl (reads_bool s.accepting)
  have hstarting := entered_of_find? stateFields "starting"
    (fun starting (t : State) => { t with starting := starting }) rfl (reads_bool s.starting)
  obtain ⟨name, starting, accepting, position?⟩ := s
  cases position? with
  | none =>
      exact reads_record (.cons hname (.cons haccepting (.cons hstarting .nil))) (by simp)
        (by simp) plainState
  | some p =>
      have hreads : Reads (optional position) (positionValue p) (some p) :=
        reads_some (reads_position (h p rfl)) fun layout => .of_record layout _
      have hposition := entered_of_find? stateFields "position"
        (fun position (t : State) => { t with position := position }) rfl hreads
      exact reads_record
        (.cons hname (.cons haccepting (.cons hstarting (.cons hposition .nil)))) (by simp)
        (by simp) plainState

theorem reads_link (l : Link) :
    Reads (record linkFields false ⟨"", "", ""⟩) (linkValue l) l := by
  have hsource := entered_of_find? linkFields "from"
    (fun source (t : Link) => { t with source := source }) rfl (reads_string l.source)
  have htarget := entered_of_find? linkFields "to"
    (fun target (t : Link) => { t with target := target }) rfl (reads_string l.target)
  have hlabel := entered_of_find? linkFields "label"
    (fun label (t : Link) => { t with label := label }) rfl (reads_string l.label)
  exact reads_record (.cons hsource (.cons htarget (.cons hlabel .nil))) (by simp) (by simp) _

/-- The values of list items that are all read back in the same way. -/
theorem reads_items {α : Type} {item : Reader α} (toValue : α → Value) (xs : List α)
    (h : ∀ x ∈ xs, Reads item (toValue x) x)
    (hopens : ∀ x (layout : Layout), Opens (layout.text (toValue x))) :
    Reads (list item) (.list (xs.map toValue)) xs := by
  refine reads_list ?_
  rw [List.forall₂_map_left_iff, List.forall₂_same]
  exact fun x hx => ⟨h x hx, hopens x⟩

theorem reads_document {d : Document} (h : FaithfulStates d.states) :
    Reads (record documentFields false ⟨[], none, []⟩) d.value d := by
  have hstates := entered_of_find? documentFields "states"
    (fun states (e : Document) => { e with states := states }) rfl
    (reads_items stateValue d.states (fun s hs => reads_state (h s hs)) fun s layout =>
      .of_record layout _)
  have hlinks := entered_of_find? documentFields "transitions"
    (fun links (e : Document) => { e with links := links }) rfl
    (reads_items linkValue d.links (fun l _ => reads_link l) fun l layout => .of_record layout _)
  have hstrings : ∀ symbols : List String,
      Reads (list string) (.list (symbols.map .string)) symbols := fun symbols =>
    reads_items .string symbols (fun s _ => reads_string s) fun s layout =>
      layout.text_string s ▸ opens_quoted s
  have halphabet : ∀ {v : Value} {alphabet : Option (List String)},
      Reads (optional (list string)) v alphabet → Entered documentFields ("alphabet", v)
        fun e => { e with alphabet := alphabet } :=
    entered_of_find? documentFields "alphabet"
      (fun alphabet (e : Document) => { e with alphabet := alphabet }) rfl
  obtain ⟨states, alphabet, links⟩ := d
  cases alphabet with
  | none =>
      have hnone := halphabet (reads_none (list string))
      exact reads_record (.cons hstates (.cons hnone (.cons hlinks .nil))) (by simp) (by simp) _
  | some symbols =>
      have hsome := halphabet
        (reads_some (hstrings symbols) fun layout => .of_list layout _)
      exact reads_record (.cons hstates (.cons hsome (.cons hlinks .nil))) (by simp) (by simp) _

/-- A document is read back from its text. -/
theorem parse_render {d : Document} (h : FaithfulStates d.states) (lines : Bool) :
    parse (d.render lines) = .ok d :=
  readAll_write (reads_document h) lines

theorem clean_toAutomaton (d : Document) :
    ∀ t ∈ d.toAutomaton.transitions, t.label.Clean := by
  intro t ht
  rw [toAutomaton, Automaton.transitions_ofLists] at ht
  obtain ⟨l, -, rfl⟩ := List.mem_map.1 ht
  exact Label.clean_parse l.label

end Document

namespace Automaton

/-- The automaton with every label read from its text. -/
def reread (a : Automaton) : Automaton :=
  { a with transitions := a.transitions.map fun t =>
      { t with label := Label.parse t.label.render } }

theorem toAutomaton_document (a : Automaton) (alphabet : Option Alphabet) :
    (a.document alphabet).toAutomaton = a.reread := by
  have hstates : (a.document alphabet).toAutomaton.states = a.reread.states :=
    states_ofLists _ _ a.nodup
  have htransitions :
      (a.document alphabet).toAutomaton.transitions = a.reread.transitions := by
    rw [Document.toAutomaton, transitions_ofLists, document, reread, List.map_map]
    rfl
  -- The third field is a proof.
  revert hstates htransitions
  generalize (a.document alphabet).toAutomaton = b
  cases b
  rintro rfl rfl
  rfl

theorem parseAutomaton_render {a : Automaton} (h : FaithfulStates a.states)
    (alphabet : Option Alphabet) (lines : Bool) :
    Document.parseAutomaton ((a.document alphabet).render lines) = .ok a.reread := by
  rw [Document.parseAutomaton, Document.parse_render h, ← a.toAutomaton_document alphabet]
  rfl

theorem reread_eq_iff (a : Automaton) :
    a.reread = a ↔ ∀ t ∈ a.transitions, t.label.Clean := by
  have htransitions : a.reread = a ↔ a.reread.transitions = a.transitions := by
    obtain ⟨states, transitions, nodup⟩ := a
    simp [reread]
  have hlabel : ∀ t : Transition,
      ({ t with label := Label.parse t.label.render } : Transition) = t ↔ t.label.Clean := by
    intro t
    rw [← Label.parse_render_eq_iff]
    cases t
    simp
  rw [htransitions]
  constructor
  · intro h t ht
    rw [← hlabel]
    have hmap : a.transitions.map (fun t => { t with label := Label.parse t.label.render }) =
        a.transitions.map id := by rw [List.map_id]; exact h
    exact List.map_inj_left.1 hmap t ht
  · intro h
    calc a.reread.transitions = a.transitions.map id :=
          List.map_congr_left fun t ht => (hlabel t).2 (h t ht)
      _ = a.transitions := List.map_id _

/-- An automaton that is written as a document of either kind and in either layout is read
again. All that may change are its labels, and they change if and only if they could not have
been read from any document. -/
theorem read_written_document (a : Automaton) (h : FaithfulStates a.states) (lines : Bool) :
    ∀ d ∈ [a.deterministicDocument, a.nondeterministicDocument],
      ∃ b, Document.parseAutomaton (d.render lines) = .ok b ∧
        b.states = a.states ∧
        b.transitions.map (fun t => (t.source, t.target)) =
          a.transitions.map (fun t => (t.source, t.target)) ∧
        (b = a ↔ ∀ t ∈ a.transitions, t.label.Clean) ∧
        ((∃ origin : Document, a = origin.toAutomaton) → b = a) := by
  intro d hd
  have hdocument : ∃ alphabet, d = a.document alphabet := by
    rcases List.mem_pair.1 hd with rfl | rfl
    · exact ⟨_, rfl⟩
    · exact ⟨_, rfl⟩
  have hends : a.reread.transitions.map (fun t => (t.source, t.target)) =
      a.transitions.map (fun t => (t.source, t.target)) := by
    rw [reread, List.map_map]
    rfl
  have hreread : (∃ origin : Document, a = origin.toAutomaton) → a.reread = a := by
    rintro ⟨origin, rfl⟩
    exact (reread_eq_iff _).2 origin.clean_toAutomaton
  obtain ⟨alphabet, rfl⟩ := hdocument
  exact ⟨a.reread, parseAutomaton_render h alphabet lines, rfl, hends, reread_eq_iff a, hreread⟩

/-- A position that is no pair of whole numbers. -/
def corner : Position := ⟨20.5, -0.1⟩

theorem faithful_corner : corner.Faithful := by
  unfold Position.Faithful Json.Faithful
  decide +kernel

/-- An automaton that is drawn, with two symbols on one edge and a token with a comma on the
other. -/
def drawn : Automaton :=
  ofLists [⟨"p", true, false, some corner⟩, ⟨"q", false, true, none⟩]
    [⟨"p", "q", ⟨["a", "b"]⟩⟩, ⟨"q", "p", ⟨["a,b"]⟩⟩]

theorem read_written_document_drawn :
    FaithfulStates drawn.states ∧
      ∃ b, Document.parseAutomaton (drawn.nondeterministicDocument.render true) = .ok b ∧
        b.states = drawn.states ∧
        b.transitions.map (fun t => (t.source, t.target)) = [("p", "q"), ("q", "p")] ∧
        b ≠ drawn := by
  have hfaithful : FaithfulStates drawn.states := by
    intro s hs p hp
    rw [drawn, states_ofLists _ _ (by decide)] at hs
    rcases List.mem_pair.1 hs with rfl | rfl
    · cases hp
      exact faithful_corner
    · cases hp
  obtain ⟨b, hparse, hstates, hends, heq, -⟩ :=
    read_written_document drawn hfaithful true drawn.nondeterministicDocument (by simp)
  refine ⟨hfaithful, b, hparse, hstates, hends, fun hb => ?_⟩
  have hclean := (heq.1 hb ⟨"q", "p", ⟨["a,b"]⟩⟩ (by simp [drawn])).2 "a,b" (by simp)
  exact hclean.comma (by decide)

/-! ## The language of what is read -/

/-- Labels without commas and without blanks at the ends of tokens let through the same pieces
when they are read again. A label without tokens becomes one with an empty token, and neither
lets anything through. -/
theorem pieces_parse_render {l : Label} (h : ∀ token ∈ l.tokens, Label.IsClean token) :
    (Label.parse l.render).pieces = l.pieces := by
  by_cases hne : l.tokens = []
  · -- The text is empty, and an empty text still has one part.
    obtain ⟨tokens⟩ := l
    subst hne
    have hparse : Label.parse (Label.render ⟨[]⟩) = ⟨[""]⟩ := by decide +kernel
    rw [hparse]
    ext v
    have hempty : ∀ c, String.singleton c ≠ "" := by
      intro c hc
      have hlist := congrArg String.toList hc
      simp at hlist
    have hepsilon : epsilonToken ≠ "" := by decide
    simp [Label.pieces, hempty, hepsilon]
  · rw [Label.Clean.parse_render ⟨hne, h⟩]

theorem edge_reread {a : Automaton}
    (h : ∀ t ∈ a.transitions, ∀ token ∈ t.label.tokens, Label.IsClean token) :
    a.reread.Edge Label.pieces = a.Edge Label.pieces := by
  have hpieces : ∀ t ∈ a.transitions, (Label.parse t.label.render).pieces = t.label.pieces :=
    fun t ht => pieces_parse_render (h t ht)
  funext p v q
  refine propext (and_congr Iff.rfl (and_congr Iff.rfl ?_))
  constructor
  · rintro ⟨_, hmem, hp, hq, hv⟩
    obtain ⟨t, ht, rfl⟩ := List.mem_map.1 hmem
    exact ⟨t, ht, hp, hq, hpieces t ht ▸ hv⟩
  · rintro ⟨t, ht, hp, hq, hv⟩
    exact ⟨_, List.mem_map_of_mem ht, hp, hq, (hpieces t ht).symm ▸ hv⟩

theorem accepts_reread {a : Automaton}
    (h : ∀ t ∈ a.transitions, ∀ token ∈ t.label.tokens, Label.IsClean token) (w : List Char) :
    a.reread.accepts w = a.accepts w := by
  have hstarts : a.reread.starts = a.starts := rfl
  have hacceptings : a.reread.acceptings = a.acceptings := rfl
  have hlanguage : w ∈ a.reread.language ↔ w ∈ a.language := by
    rw [language, language, mem_languageOver, mem_languageOver, hstarts, hacceptings]
    simp only [path_iff_leads, edge_reread h]
  rw [Bool.eq_iff_iff, accepts_iff_mem_language, accepts_iff_mem_language, hlanguage]

/-! ## Automata that are not drawn -/

theorem eq_or_mem_of_mem_insertState {s u : State} {states : List State}
    (h : u ∈ insertState s states) : u = s ∨ u ∈ states := by
  induction states with
  | nil => exact .inl (List.mem_singleton.1 h)
  | cons t states ih =>
      rw [insertState] at h
      rw [List.mem_cons]
      by_cases hname : t.name = s.name
      · rw [if_pos hname, List.mem_cons] at h
        exact h.imp_right .inr
      · rw [if_neg hname, List.mem_cons] at h
        rcases h with rfl | h
        · exact .inr (.inl rfl)
        · exact (ih h).imp_right .inr

theorem mem_of_mem_states_ofLists {states : List State} {transitions : List Transition}
    {s : State} (h : s ∈ (ofLists states transitions).states) : s ∈ states := by
  have hfold : ∀ a : Automaton, s ∈ (states.foldl insert a).states →
      s ∈ a.states ∨ s ∈ states := by
    clear h
    induction states with
    | nil => exact fun a h => .inl h
    | cons t states ih =>
        intro a h
        rw [List.mem_cons]
        rcases ih (a.insert t) h with h | h
        · exact (eq_or_mem_of_mem_insertState h).elim (fun h => .inr (.inl h)) .inl
        · exact .inr (.inr h)
  rcases hfold empty h with h | h
  · cases h
  · exact h

/-- Without positions there is nothing that may be read wrongly. -/
theorem faithfulStates_ofLists {states : List State} (h : ∀ s ∈ states, s.position = none)
    (transitions : List Transition) : FaithfulStates (ofLists states transitions).states := by
  intro s hs p hp
  rw [h s (mem_of_mem_states_ofLists hs)] at hp
  cases hp

end Automaton

end FiniteState
