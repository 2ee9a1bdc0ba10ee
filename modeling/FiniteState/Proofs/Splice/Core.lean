import FiniteState.Proofs.Splice.Replacement

/-!
# Transitions that name states that do not exist

A transition of a graph may name a state that does not exist, and then it dangles: it is on no path.
The construction keeps or replaces it like any other, though. Beside the automaton in the making
there is its core, which is built in the same way from the other transitions only, with the same
names. The core accepts the words that the graph accepts. What has been built beyond the core comes
from transitions that dangle, and it is on no path either, as long as these still dangle among
the new states: a walk cannot enter what replaces a transition without a source, and cannot leave
what replaces one without a target.
-/

namespace FiniteState

/-- Both ends of the transition are among the names. -/
def Transition.joins (names : List String) (t : Transition) : Bool :=
  names.contains t.source && names.contains t.target

theorem Transition.joins_iff (names : List String) (t : Transition) :
    t.joins names = true ↔ t.source ∈ names ∧ t.target ∈ names := by
  simp [joins]

namespace Automaton

open Net (stateName)

/-- The automaton without the transitions that name a state that does not exist. -/
def withoutDangling (a : Automaton) : Automaton :=
  { a with transitions := a.transitions.filter (Transition.joins a.names) }

theorem joins_of_mem_withoutDangling {a : Automaton} {t : Transition}
    (ht : t ∈ a.withoutDangling.transitions) :
    t.source ∈ a.withoutDangling.names ∧ t.target ∈ a.withoutDangling.names :=
  (Transition.joins_iff a.names t).1 (List.mem_filter.1 ht).2

theorem withoutDangling_eq_self {a : Automaton}
    (hends : ∀ t ∈ a.transitions, t.source ∈ a.names ∧ t.target ∈ a.names) :
    a.withoutDangling = a := by
  rw [withoutDangling, List.filter_eq_self.2 fun t ht => (Transition.joins_iff _ t).2 (hends t ht)]

/-! ## The names of the new states -/

/-- The state is one of those that replace the transition with the number `j`. -/
def Inner (names : List String) (j : Nat) (name : String) : Prop :=
  ∃ k, name = stateName (stemFor names j) k

theorem Inner.not_mem {names : List String} {j : Nat} {name : String} (h : Inner names j name) :
    name ∉ names := by
  obtain ⟨k, rfl⟩ := h
  exact stateName_not_mem names j k

theorem Inner.unique {names : List String} {i j : Nat} {name : String} (hi : Inner names i name)
    (hj : Inner names j name) : i = j := by
  obtain ⟨k, rfl⟩ := hi
  obtain ⟨l, hl⟩ := hj
  exact eq_of_stateName_eq hl

/-- The edge is the transition `t` with the number `j` or belongs to what replaces it. -/
def StemsFrom (names : List String) (j : Nat) (t : Transition) (p q : String) : Prop :=
  (p = t.source ∨ Inner names j p) ∧ (q = t.target ∨ Inner names j q)

theorem stemsFrom_of_edgeOf_singleton {names : List String} {j : Nat} {t : Transition}
    {p q : String} {v : List Char} (h : EdgeOf Label.pieces [t] p v q) :
    StemsFrom names j t p q := by
  obtain ⟨u, hu, rfl, rfl, -⟩ := h
  obtain rfl := List.mem_singleton.1 hu
  exact ⟨.inl rfl, .inl rfl⟩

theorem stemsFrom_of_edgeOf_spliceTransitions {names : List String} {j : Nat} {t : Transition}
    {b : Automaton} (hjoined : b.Joined Label.pieces) (hb : ∀ name ∈ b.names, Inner names j name)
    {p q : String} {v : List Char}
    (h : EdgeOf Label.pieces (spliceTransitions b t.source t.target) p v q) :
    StemsFrom names j t p q := by
  rcases (edgeOf_spliceTransitions b _ _ p v q).1 h with he | ⟨rfl, -, hq⟩ | ⟨hp, -, rfl⟩
  · obtain ⟨hp, hq⟩ := hjoined p v q he
    exact ⟨.inr (hb p hp), .inr (hb q hq)⟩
  · exact ⟨.inl rfl, .inr (hb q hq.mem_names)⟩
  · exact ⟨.inr (hb p hp.mem_names), .inl rfl⟩

/-! ## One step -/

/-- `a` with the states of `b` and more transitions. -/
def extend (a b : Automaton) (us : List Transition) : Automaton :=
  { a.addInner b with transitions := (a.addInner b).transitions ++ us }

theorem edgeOf_extend (a b : Automaton) (us : List Transition) (p : String) (v : List Char)
    (q : String) : EdgeOf Label.pieces (a.extend b us).transitions p v q ↔
      EdgeOf Label.pieces a.transitions p v q ∨ EdgeOf Label.pieces us p v q := by
  rw [extend, transitions_addInner, edgeOf_append]

theorem names_extend {a b : Automaton} (h : ∀ name ∈ b.names, name ∉ a.names)
    (us : List Transition) : (a.extend b us).names = a.names ++ b.names :=
  names_addInner h

/-- The states of `b` and the transitions `us` take the place of the transition `t` with the number
`i`, and lead between states of the graph wherever `t` led. -/
structure Replaces (names : List String) (alphabet : Option Alphabet) (i : Nat) (t : Transition)
    (b : Automaton) (us : List Transition) : Prop where
  inner : ∀ name ∈ b.names, Inner names i name
  stems : ∀ p v q, EdgeOf Label.pieces us p v q → StemsFrom names i t p q
  inMaking : t.joins names = true → ∀ built, Partial names i built →
    Partial names (i + 1) (built.extend b us)
  leads_iff : ∀ built, Partial names i built → ∀ ts, (∀ u ∈ t :: ts, u.joins names = true) →
    ∀ p ∈ names, ∀ q ∈ names, ∀ w,
      Leads (Mixed alphabet (built.extend b us).transitions ts) p w q ↔
        Leads (Mixed alphabet built.transitions (t :: ts)) p w q

section

variable {names : List String} {alphabet : Option Alphabet} {i : Nat} {t : Transition}

/-- A transition that lists symbols takes its own place. -/
theorem replaces_of_isPlain (hplain : t.label.isPlain alphabet = true) :
    Replaces names alphabet i t empty [t] where
  inner _ hname := absurd hname List.not_mem_nil
  stems _ _ _ := stemsFrom_of_edgeOf_singleton
  inMaking := by
    intro hjoins built h
    obtain ⟨hsource, htarget⟩ := (Transition.joins_iff names t).1 hjoins
    exact h.keep hsource htarget
  leads_iff built _ ts _ p _ q _ w := leads_mixed_keep hplain built ts p w q

/-- The automaton of an expression takes the place of a transition with the expression. -/
theorem replaces_of_parse (hplain : t.label.isPlain alphabet = false) {r : Regex}
    (hr : Regex.parse t.label.source = .ok r) :
    Replaces names alphabet i t (r.toAutomaton (stemFor names i))
      (spliceTransitions (r.toAutomaton (stemFor names i)) t.source t.target) where
  inner _ hname := mem_names_toAutomaton hname
  stems _ _ _ := stemsFrom_of_edgeOf_spliceTransitions (joined_toAutomaton r _) fun _ hname =>
    mem_names_toAutomaton hname
  inMaking := by
    intro hjoins built h
    obtain ⟨hsource, htarget⟩ := (Transition.joins_iff names t).1 hjoins
    exact h.splice r hsource htarget
  leads_iff := by
    intro built h ts hts p hp q hq w
    have hends : ∀ u ∈ t :: ts, u.source ∈ names ∧ u.target ∈ names := fun u hu =>
      (Transition.joins_iff names u).1 (hts u hu)
    exact h.leads_splice hends hplain hr hp hq w

/-- One step of a construction that succeeds replaces the next transition. -/
theorem exists_replaces_of_spliceFrom {built n : Automaton} {ts : List Transition}
    (h : spliceFrom names alphabet i built (t :: ts) = .ok n) :
    ∃ b us, Replaces names alphabet i t b us ∧
      spliceFrom names alphabet (i + 1) (built.extend b us) ts = .ok n := by
  cases hplain : t.label.isPlain alphabet with
  | true =>
      rw [spliceFrom_cons_of_isPlain hplain] at h
      exact ⟨_, _, replaces_of_isPlain hplain, h⟩
  | false =>
      cases hr : Regex.parse t.label.source with
      | error e =>
          rw [spliceFrom_cons_of_error hplain hr] at h
          cases h
      | ok r =>
          rw [spliceFrom_cons_of_parse hplain hr] at h
          exact ⟨_, _, replaces_of_parse hplain hr, h⟩

end

/-! ## The core -/

/-- What holds of the automaton in the making before the transition with the number `i`, and of its
core, which is built from the transitions that join states of the graph. -/
structure Core (a : Automaton) (i : Nat) (built core : Automaton) : Prop where
  inMaking : Partial a.names i core
  new : ∀ name ∈ built.names, name ∈ a.names ∨ ∃ j < i, Inner a.names j name
  names_subset : ∀ name ∈ core.names, name ∈ built.names
  inner : ∀ name ∈ core.names, name ∈ a.names ∨
    ∃ j t, a.transitions[j]? = some t ∧ t.joins a.names = true ∧ Inner a.names j name
  starts : built.starts = a.starts ∧ core.starts = a.starts
  acceptings : built.acceptings = a.acceptings ∧ core.acceptings = a.acceptings
  edges_subset : ∀ p v q, EdgeOf Label.pieces core.transitions p v q →
    EdgeOf Label.pieces built.transitions p v q
  /-- All other edges come from transitions that dangle. -/
  stray : ∀ p v q, EdgeOf Label.pieces built.transitions p v q →
    EdgeOf Label.pieces core.transitions p v q ∨
      ∃ j t, a.transitions[j]? = some t ∧ t.joins a.names = false ∧ StemsFrom a.names j t p q

theorem core_start (a : Automaton) :
    Core a 0 { a with transitions := [] } { a with transitions := [] } where
  inMaking :=
    ⟨fun _ hname => hname, fun _ hname => .inl hname,
      fun p v q he => absurd he (edgeOf_nil p v q)⟩
  new _ hname := .inl hname
  names_subset _ hname := hname
  inner _ hname := .inl hname
  starts := ⟨rfl, rfl⟩
  acceptings := ⟨rfl, rfl⟩
  edges_subset _ _ _ he := he
  stray _ _ _ he := .inl he

namespace Core

variable {a built core b : Automaton} {alphabet : Option Alphabet} {i : Nat} {t : Transition}
  {us : List Transition}

/-- What replaces the next transition is new. -/
theorem fresh (h : Core a i built core) (hb : ∀ name ∈ b.names, Inner a.names i name) :
    ∀ name ∈ b.names, name ∉ built.names := by
  intro name hname hmem
  rcases h.new name hmem with hold | ⟨j, hj, hinner⟩
  · exact (hb name hname).not_mem hold
  · exact absurd (hinner.unique (hb name hname)) (Nat.ne_of_lt hj)

theorem new_extend (h : Core a i built core) (hb : ∀ name ∈ b.names, Inner a.names i name) :
    ∀ name ∈ (built.extend b us).names, name ∈ a.names ∨ ∃ j < i + 1, Inner a.names j name := by
  intro name hname
  rw [names_extend (h.fresh hb), List.mem_append] at hname
  rcases hname with hname | hname
  · refine (h.new name hname).imp_right ?_
    rintro ⟨j, hj, hinner⟩
    exact ⟨j, Nat.lt_succ_of_lt hj, hinner⟩
  · exact .inr ⟨i, Nat.lt_succ_self i, hb name hname⟩

/-- A transition that joins states of the graph is kept or replaced in the core as well. -/
theorem both (h : Core a i built core) (hstep : Replaces a.names alphabet i t b us)
    (ht : a.transitions[i]? = some t) (hjoins : t.joins a.names = true) :
    Core a (i + 1) (built.extend b us) (core.extend b us) := by
  have hfresh := h.fresh hstep.inner
  have hfresh' : ∀ name ∈ b.names, name ∉ core.names := fun name hname hmem =>
    hfresh name hname (h.names_subset name hmem)
  have hnames := names_extend hfresh us
  have hnames' := names_extend hfresh' us
  have hmaking := hstep.inMaking hjoins core h.inMaking
  refine ⟨hmaking, h.new_extend hstep.inner, ?names_subset, ?inner, ?starts, ?acceptings,
    ?edges_subset, ?stray⟩
  case names_subset =>
    intro name hname
    rw [hnames', List.mem_append] at hname
    rw [hnames, List.mem_append]
    exact hname.imp_left (h.names_subset name)
  case inner =>
    intro name hname
    rw [hnames', List.mem_append] at hname
    rcases hname with hname | hname
    · exact h.inner name hname
    · exact .inr ⟨i, t, ht, hjoins, hstep.inner name hname⟩
  case starts =>
    exact ⟨(starts_addInner hfresh).trans h.starts.1, (starts_addInner hfresh').trans h.starts.2⟩
  case acceptings =>
    exact ⟨(acceptings_addInner hfresh).trans h.acceptings.1,
      (acceptings_addInner hfresh').trans h.acceptings.2⟩
  case edges_subset =>
    intro p v q he
    rw [edgeOf_extend] at he ⊢
    exact he.imp_left (h.edges_subset p v q)
  case stray =>
    intro p v q he
    rw [edgeOf_extend] at he ⊢
    rcases he with he | he
    · exact (h.stray p v q he).imp_left .inl
    · exact .inl (.inr he)

/-- A transition that dangles is passed over in the core. -/
theorem only (h : Core a i built core) (hstep : Replaces a.names alphabet i t b us)
    (ht : a.transitions[i]? = some t) (hjoins : t.joins a.names = false) :
    Core a (i + 1) (built.extend b us) core := by
  have hfresh := h.fresh hstep.inner
  refine ⟨h.inMaking.succ, h.new_extend hstep.inner, ?names_subset, h.inner, ?starts, ?acceptings,
    ?edges_subset, ?stray⟩
  case names_subset =>
    intro name hname
    rw [names_extend hfresh]
    exact List.mem_append_left _ (h.names_subset name hname)
  case starts => exact ⟨(starts_addInner hfresh).trans h.starts.1, h.starts.2⟩
  case acceptings => exact ⟨(acceptings_addInner hfresh).trans h.acceptings.1, h.acceptings.2⟩
  case edges_subset =>
    intro p v q he
    exact (edgeOf_extend built b us p v q).2 (.inl (h.edges_subset p v q he))
  case stray =>
    intro p v q he
    rcases (edgeOf_extend built b us p v q).1 he with he | he
    · exact h.stray p v q he
    · exact .inr ⟨i, t, ht, hjoins, hstep.stems p v q he⟩

end Core

/-- Once all transitions are taken there is a core, and in the core the same words lead from one
state of the graph to another as along the transitions that join states. -/
theorem exists_core_of_spliceFrom {a built core n : Automaton} {alphabet : Option Alphabet}
    {ts : List Transition} {i : Nat} (hdrop : a.transitions.drop i = ts)
    (hcore : Core a i built core) (h : spliceFrom a.names alphabet i built ts = .ok n) :
    ∃ j core', Core a j n core' ∧ ∀ p ∈ a.names, ∀ q ∈ a.names, ∀ w,
      Leads (EdgeOf Label.pieces core'.transitions) p w q ↔
        Leads (Mixed alphabet core.transitions (ts.filter (Transition.joins a.names))) p w q := by
  induction ts generalizing i built core with
  | nil =>
      obtain rfl := Except.ok.inj h
      refine ⟨i, core, hcore, fun p _ q _ w => Leads.congr fun p v q => ?_⟩
      rw [List.filter_nil, Mixed, or_iff_left (edgeOf_nil p v q)]
  | cons t ts ih =>
      have ht : a.transitions[i]? = some t := by
        rw [← List.head?_drop, hdrop, List.head?_cons]
      have hrest : a.transitions.drop (i + 1) = ts := by
        rw [← List.tail_drop, hdrop, List.tail_cons]
      obtain ⟨b, us, hstep, hnext⟩ := exists_replaces_of_spliceFrom h
      cases hjoins : t.joins a.names with
      | true =>
          obtain ⟨j, core', hcore', hleads⟩ := ih hrest (hcore.both hstep ht hjoins) hnext
          refine ⟨j, core', hcore', fun p hp q hq w => (hleads p hp q hq w).trans ?_⟩
          rw [List.filter_cons_of_pos hjoins]
          refine hstep.leads_iff core hcore.inMaking _ (fun u hu => ?_) p hp q hq w
          rcases List.mem_cons.1 hu with rfl | hu
          · exact hjoins
          · exact (List.mem_filter.1 hu).2
      | false =>
          obtain ⟨j, core', hcore', hleads⟩ := ih hrest (hcore.only hstep ht hjoins) hnext
          refine ⟨j, core', hcore', fun p hp q hq w => ?_⟩
          rw [List.filter_cons_of_neg (ne_true_of_eq_false hjoins)]
          exact hleads p hp q hq w

/-- The core accepts the words of the graph without the transitions that dangle. -/
theorem exists_core {a n : Automaton} {alphabet : Option Alphabet}
    (h : a.splice alphabet = .ok n) : ∃ i core, Core a i n core ∧
      ∀ w, core.accepts w = true ↔ w ∈ a.withoutDangling.patternLanguage alphabet := by
  obtain ⟨i, core, hcore, hleads⟩ := exists_core_of_spliceFrom rfl (core_start a) h
  refine ⟨i, core, hcore, fun w => ?_⟩
  have hgraph : a.withoutDangling.Joined (Label.patternPieces alphabet) := by
    rintro p v q ⟨t, ht, rfl, rfl, -⟩
    exact joins_of_mem_withoutDangling ht
  have hpath : ∀ p ∈ a.names, ∀ q ∈ a.names, (Path core Label.pieces p w q ↔
      Path a.withoutDangling (Label.patternPieces alphabet) p w q) := by
    intro p hp q hq
    rw [hcore.inMaking.joined.path_iff, hgraph.path_iff, hleads p hp q hq]
    refine Leads.congr fun p v q => ?_
    rw [Mixed, or_iff_right (edgeOf_nil p v q)]
    rfl
  have hname : ∀ {s : State} {f : State → Bool}, s ∈ a.states.filter f → s.name ∈ a.names :=
    fun hs => List.mem_map_of_mem (List.mem_filter.1 hs).1
  have hstarts : a.withoutDangling.starts = a.starts := rfl
  have haccept : a.withoutDangling.acceptings = a.acceptings := rfl
  rw [accepts_iff_mem_language, language, mem_languageOver, patternLanguage, mem_languageOver,
    hcore.starts.2, hcore.acceptings.2, hstarts, haccept]
  exact exists_congr fun s => and_congr_right fun hs => exists_congr fun u =>
    and_congr_right fun hu => hpath _ (hname hs) _ (hname hu)

/-! ## What is cut off -/

/-- The state replaces a transition that dangles, and this end of the transition is not a state of
`n` either. -/
def Cut (a n : Automaton) (side : Transition → String) (name : String) : Prop :=
  ∃ j t, a.transitions[j]? = some t ∧ t.joins a.names = false ∧ side t ∉ n.names ∧
    Inner a.names j name

/-- The end is missing of the transition that is replaced. -/
theorem Cut.not_mem {a n : Automaton} {side : Transition → String} {name : String}
    (h : Cut a n side name) {j : Nat} {t : Transition} (ht : a.transitions[j]? = some t)
    (hinner : Inner a.names j name) : side t ∉ n.names := by
  obtain ⟨k, u, hu, -, hside, hinner'⟩ := h
  obtain rfl := hinner.unique hinner'
  rw [ht, Option.some.injEq] at hu
  exact hu ▸ hside

namespace Core

variable {a n core : Automaton} {i : Nat} {side : Transition → String} {name p q : String}
  {v w : List Char}

/-- What is cut off is not in the core. -/
theorem not_cut_of_mem_core (h : Core a i n core) (hname : name ∈ core.names) :
    ¬ Cut a n side name := by
  rintro ⟨j, t, ht, hdangles, hside, hinner⟩
  rcases h.inner name hname with hold | ⟨k, u, hu, hjoins, hinner'⟩
  · exact hinner.not_mem hold
  · obtain rfl := hinner.unique hinner'
    rw [ht, Option.some.injEq] at hu
    rw [hu, hjoins] at hdangles
    cases hdangles

/-- An edge between states of `n` is in the core or belongs to what replaces one transition that
dangles. Then it begins there if the source of the transition is missing, and ends there if the
target is missing. -/
theorem edge_cases (h : Core a i n core) (he : n.Edge Label.pieces p v q) :
    (p ∈ core.names ∧ q ∈ core.names ∧ EdgeOf Label.pieces core.transitions p v q) ∨
      ∃ j t, a.transitions[j]? = some t ∧ t.joins a.names = false ∧
        (t.source ∉ n.names → Inner a.names j p) ∧ (t.target ∉ n.names → Inner a.names j q) := by
  obtain ⟨hp, hq, hedge⟩ := he
  rcases h.stray p v q hedge with hcore | ⟨j, t, ht, hdangles, hstems⟩
  · obtain ⟨hp', hq'⟩ := h.inMaking.joined p v q hcore
    exact .inl ⟨hp', hq', hcore⟩
  · refine .inr ⟨j, t, ht, hdangles, fun hsource => ?_, fun htarget => ?_⟩
    · exact hstems.1.resolve_left fun heq => hsource (heq ▸ hp)
    · exact hstems.2.resolve_left fun heq => htarget (heq ▸ hq)

section

variable (h : Core a i n core) (hdangling : ∀ t ∈ a.transitions, t.joins a.names = false →
  t.source ∉ n.names ∨ t.target ∉ n.names)

include h hdangling

/-- What replaces transitions without a source cannot be entered. -/
theorem cut_source_of_edge (he : n.Edge Label.pieces p v q)
    (hq : Cut a n Transition.source q) : Cut a n Transition.source p := by
  rcases h.edge_cases he with ⟨-, hmem, -⟩ | ⟨j, t, ht, hdangles, hleave, henter⟩
  · exact absurd hq (h.not_cut_of_mem_core hmem)
  · have hsource : t.source ∉ n.names := by
      rcases hdangling t (List.mem_of_getElem? ht) hdangles with hsource | htarget
      · exact hsource
      · exact hq.not_mem ht (henter htarget)
    exact ⟨j, t, ht, hdangles, hsource, hleave hsource⟩

/-- What replaces transitions without a target cannot be left. -/
theorem cut_target_of_edge (he : n.Edge Label.pieces p v q)
    (hp : Cut a n Transition.target p) : Cut a n Transition.target q := by
  rcases h.edge_cases he with ⟨hmem, -, -⟩ | ⟨j, t, ht, hdangles, hleave, henter⟩
  · exact absurd hp (h.not_cut_of_mem_core hmem)
  · have htarget : t.target ∉ n.names := by
      rcases hdangling t (List.mem_of_getElem? ht) hdangles with hsource | htarget
      · exact hp.not_mem ht (hleave hsource)
      · exact htarget
    exact ⟨j, t, ht, hdangles, htarget, henter htarget⟩

theorem core_edge_or_cut (he : n.Edge Label.pieces p v q) :
    EdgeOf Label.pieces core.transitions p v q ∨ Cut a n Transition.source p ∨
      Cut a n Transition.target q := by
  rcases h.edge_cases he with ⟨-, -, hcore⟩ | ⟨j, t, ht, hdangles, hleave, henter⟩
  · exact .inl hcore
  · rcases hdangling t (List.mem_of_getElem? ht) hdangles with hsource | htarget
    · exact .inr (.inl ⟨j, t, ht, hdangles, hsource, hleave hsource⟩)
    · exact .inr (.inr ⟨j, t, ht, hdangles, htarget, henter htarget⟩)

/-- A path between states of the core is a path of the core. -/
theorem core_path_of_path (hp : p ∈ core.names) (hq : q ∈ core.names)
    (hw : Path n Label.pieces p w q) : Path core Label.pieces p w q := by
  rw [path_iff_leads] at hw
  rw [h.inMaking.joined.path_iff]
  exact hw.avoid (P := Cut a n Transition.source) (Q := Cut a n Transition.target)
    (fun _ _ _ => h.cut_source_of_edge hdangling) (fun _ _ _ => h.cut_target_of_edge hdangling)
    (fun _ _ _ => h.core_edge_or_cut hdangling) (h.not_cut_of_mem_core hp)
    (h.not_cut_of_mem_core hq)

end

/-- A path of the core is a path. -/
theorem path_of_core_path (h : Core a i n core) (hw : Path core Label.pieces p w q) :
    Path n Label.pieces p w q := by
  rw [path_iff_leads] at hw ⊢
  refine hw.mono fun p v q he => ?_
  obtain ⟨hp, hq, hedge⟩ := he
  exact ⟨h.names_subset p hp, h.names_subset q hq, h.edges_subset p v q hedge⟩

/-- What the core accepts is accepted. -/
theorem accepts_of_core (h : Core a i n core) (hw : core.accepts w = true) :
    n.accepts w = true := by
  rw [accepts_iff_mem_language] at hw ⊢
  obtain ⟨p, hp, q, hq, hpath⟩ := hw
  rw [h.starts.2, ← h.starts.1] at hp
  rw [h.acceptings.2, ← h.acceptings.1] at hq
  exact ⟨p, hp, q, hq, h.path_of_core_path hpath⟩

/-- The core accepts all that is accepted if what dangles in the graph still does. -/
theorem accepts_eq (h : Core a i n core) (hdangling : ∀ t ∈ a.transitions,
    t.joins a.names = false → t.source ∉ n.names ∨ t.target ∉ n.names) (w : List Char) :
    n.accepts w = core.accepts w := by
  refine Bool.eq_iff_iff.2 ⟨fun hw => ?_, h.accepts_of_core⟩
  rw [accepts_iff_mem_language] at hw ⊢
  obtain ⟨p, hp, q, hq, hpath⟩ := hw
  rw [h.starts.1, ← h.starts.2] at hp
  rw [h.acceptings.1, ← h.acceptings.2] at hq
  exact ⟨p, hp, q, hq, h.core_path_of_path hdangling (Starting.mem_names ⟨p, hp, rfl⟩)
    (Accepting.mem_names ⟨q, hq, rfl⟩) hpath⟩

end Core

end Automaton

end FiniteState
