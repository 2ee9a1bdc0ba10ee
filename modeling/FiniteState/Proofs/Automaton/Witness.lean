import FiniteState.Automaton.Witness
import FiniteState.Proofs.Automaton.Minimise
import FiniteState.Proofs.BreadthFirst

/-!
# Least accepted words

The ways of the search for an accepted word are transitions, of which the least symbol is read,
so every walk along them is a path. Conversely there is a walk beside every path, which reads at
each step no later symbol than the path does. In a complete deterministic automaton the ways that
leave a state are strictly ordered by what they read, and the walk that is found first reads the
first accepted word in shortlex order.
-/

namespace FiniteState.Automaton

open BreadthFirst (NotAfter)

/-- The first word of which something holds: none is shorter, and none that is equally long comes
before it in the order of code points. -/
structure IsFirst (P : List Char → Prop) (w : List Char) : Prop where
  holds : P w
  first : ∀ v, P v → v = w ∨ List.Shortlex (· < ·) w v

theorem IsFirst.unique {P : List Char → Prop} {v w : List Char} (hv : IsFirst P v)
    (hw : IsFirst P w) : v = w := by
  rcases hv.first w hw.holds with heq | hvw
  · exact heq.symm
  · rcases hw.first v hv.holds with heq | hwv
    · exact heq
    · exact absurd hvw (Std.Asymm.asymm _ _ hwv)

variable {a : Automaton}

/-! ## What is read on a transition -/

theorem mem_of_leastSymbol? {l : Label} {c : Char} (h : leastSymbol? l = some c) :
    c ∈ l.symbols :=
  (Alphabet.mem_ofList l.symbols c).1 (List.mem_of_head? h)

theorem exists_leastSymbol? {l : Label} {d : Char} (hd : d ∈ l.symbols) :
    ∃ c, leastSymbol? l = some c ∧ c ≤ d := by
  have hmem := (Alphabet.mem_def _ _).1 ((Alphabet.mem_ofList l.symbols d).2 hd)
  have hincreasing := (Alphabet.ofList l.symbols).increasing
  rw [leastSymbol?]
  cases hsymbols : (Alphabet.ofList l.symbols).symbols with
  | nil =>
      rw [hsymbols] at hmem
      cases hmem
  | cons c cs =>
      rw [hsymbols] at hmem hincreasing
      refine ⟨c, rfl, ?_⟩
      rcases List.mem_cons.1 hmem with rfl | hmem
      · exact Char.le_refl _
      · exact Char.not_lt.1 (Char.lt_asymm ((List.pairwise_cons.1 hincreasing).1 d hmem))

theorem mem_readings_iff (l : Label) (r : Option Char) : r ∈ readings l ↔
    (r = none ∧ l.hasEpsilon = true) ∨ ∃ c, leastSymbol? l = some c ∧ r = some c := by
  rw [readings, List.mem_append]
  refine or_congr ?_ ?_
  · cases l.hasEpsilon <;> simp
  · cases leastSymbol? l <;> simp

theorem nodup_readings (l : Label) : (readings l).Nodup := by
  rw [readings]
  cases l.hasEpsilon <;> cases leastSymbol? l <;> simp

/-- What is read on a transition is one of the pieces of its label. -/
theorem mem_pieces_of_mem_readings {l : Label} {r : Option Char} (h : r ∈ readings l) :
    r.toList ∈ l.pieces := by
  rw [Label.mem_pieces_iff]
  rcases (mem_readings_iff l r).1 h with ⟨rfl, hε⟩ | ⟨c, hc, rfl⟩
  · exact .inl ⟨rfl, hε⟩
  · exact .inr ⟨c, mem_of_leastSymbol? hc, rfl⟩

/-- The ways over one transition. -/
def waysOver (a : Automaton) (t : Transition) : List (Option Char × String) :=
  if a.hasState t.target then (readings t.label).map fun r => (r, t.target) else []

theorem mem_waysOver_iff (a : Automaton) (t : Transition) (r : Option Char) (q : String) :
    (r, q) ∈ a.waysOver t ↔ t.target = q ∧ t.target ∈ a.names ∧ r ∈ readings t.label := by
  rw [waysOver]
  split
  · next htarget =>
      rw [hasState_iff] at htarget
      simp [htarget, and_comm]
  · next htarget =>
      rw [hasState_iff] at htarget
      simp [htarget]

/-- What is read on one transition differs. -/
theorem pairwise_waysOver (a : Automaton) (t : Transition) :
    (a.waysOver t).Pairwise fun d e => d.1 ≠ e.1 := by
  rw [waysOver]
  split
  · exact List.pairwise_map.2 (nodup_readings t.label)
  · exact .nil

theorem ways_perm (a : Automaton) (name : String) :
    (a.ways name).Perm ((a.outgoing name).flatMap a.waysOver) :=
  List.mergeSort_perm _ _

theorem mem_ways_iff (a : Automaton) (name : String) (r : Option Char) (q : String) :
    (r, q) ∈ a.ways name ↔ ∃ t ∈ a.transitions, t.source = name ∧ t.target = q ∧
      t.target ∈ a.names ∧ r ∈ readings t.label := by
  rw [(ways_perm a name).mem_iff, List.mem_flatMap]
  simp only [mem_outgoing, mem_waysOver_iff, and_assoc]

theorem mem_names_of_mem_ways {name : String} {e : Option Char × String} (h : e ∈ a.ways name) :
    e.2 ∈ a.names := by
  obtain ⟨t, -, -, htarget, hmem, -⟩ := (mem_ways_iff a name e.1 e.2).1 h
  exact htarget ▸ hmem

/-! ## Walks and paths -/

/-- A walk along the ways is a path that reads what is read on the ways. -/
theorem path_of_walk {p q : String} {labels : List (Option Char)} (hp : p ∈ a.names)
    (h : Walk a.ways p labels q) : q ∈ a.names ∧ Path a Label.pieces p (labels.filterMap id) q := by
  induction h with
  | nil => exact ⟨hp, .nil p⟩
  | @snoc labels q q' r hw hmem ih =>
      obtain ⟨hq, hpath⟩ := ih
      obtain ⟨t, ht, rfl, rfl, htarget, hr⟩ := (mem_ways_iff a q r q').1 hmem
      have hlast := Path.cons ht hq htarget (mem_pieces_of_mem_readings hr) (.nil t.target)
      refine ⟨htarget, ?_⟩
      rw [List.filterMap_append]
      cases r <;> exact hpath.append hlast

theorem notAfter_cons {c d : Char} {x w : List Char} (hcd : c ≤ d) (hlen : x.length = w.length)
    (h : NotAfter (· < ·) x w) : NotAfter (· < ·) (c :: x) (d :: w) := by
  by_cases heq : c = d
  · subst heq
    rcases h with - | h
    · exact .refl
    · exact .single (List.Shortlex.append_left h [c])
  · have hlt : c < d := Char.not_le.1 fun hdc => heq (Char.le_antisymm hcd hdc)
    exact .single (.of_lex (by simp [hlen]) (.rel hlt))

/-- Beside every path there is a walk that reads no later symbols. -/
theorem exists_walk_of_path {p q : String} {w : List Char} (h : Path a Label.pieces p w q) :
    ∃ labels, Walk a.ways p labels q ∧ (labels.filterMap id).length = w.length ∧
      NotAfter (· < ·) (labels.filterMap id) w := by
  induction h with
  | nil p => exact ⟨[], .nil, rfl, .refl⟩
  | @cons t v w q ht hsource htarget hv _ ih =>
      obtain ⟨labels, hwalk, hlen, hle⟩ := ih
      have hway : ∀ r ∈ readings t.label, (r, t.target) ∈ a.ways t.source := fun r hr =>
        (mem_ways_iff a _ r _).2 ⟨t, ht, rfl, rfl, htarget, hr⟩
      rcases (Label.mem_pieces_iff t.label v).1 hv with ⟨rfl, hε⟩ | ⟨d, hd, rfl⟩
      · have hr := (mem_readings_iff t.label none).2 (.inl ⟨rfl, hε⟩)
        exact ⟨none :: labels, Walk.cons (hway none hr) hwalk, hlen, hle⟩
      · obtain ⟨c, hc, hcd⟩ := exists_leastSymbol? hd
        have hr := (mem_readings_iff t.label (some c)).2 (.inr ⟨c, hc, rfl⟩)
        refine ⟨some c :: labels, Walk.cons (hway _ hr) hwalk, ?_, ?_⟩
        · simpa using hlen
        · exact notAfter_cons hcd hlen hle

theorem isAccepting_iff (a : Automaton) (name : String) :
    a.isAccepting name = true ↔ ∃ q ∈ a.acceptings, q.name = name := by
  rw [isAccepting, state?]
  constructor
  · intro h
    cases hfind : a.states.find? fun s => s.name == name with
    | none =>
        rw [hfind] at h
        cases h
    | some s =>
        rw [hfind] at h
        have hname := List.find?_some hfind
        exact ⟨s, List.mem_filter.2 ⟨List.mem_of_find?_eq_some hfind, h⟩, eq_of_beq hname⟩
  · rintro ⟨q, hq, rfl⟩
    obtain ⟨hmem, haccepting⟩ := List.mem_filter.1 hq
    cases hfind : a.states.find? fun s => s.name == q.name with
    | none => exact absurd (beq_self_eq_true q.name) (List.find?_eq_none.1 hfind q hmem)
    | some s =>
        -- the state that is found has the name, and no two states share one
        have hs := List.mem_of_find?_eq_some hfind
        have hname := List.find?_some hfind
        have heq : s = q := List.inj_on_of_nodup_map a.nodup hs hmem (eq_of_beq hname)
        exact heq ▸ haccepting

/-! ## What the search finds -/

/-- The visits of the search for an accepted word. -/
def visits (a : Automaton) : List (Visit String (Option Char)) :=
  BreadthFirst.search a.ways a.states.length (stateNames a.starts)

theorem witness?_eq (a : Automaton) : a.witness? =
    (a.visits.find? fun v => a.isAccepting v.node).map fun v => v.labels.filterMap id :=
  rfl

theorem nodup_stateNames_starts (a : Automaton) : (stateNames a.starts).Nodup :=
  a.nodup.sublist (List.filter_sublist.map State.name)

theorem mem_names_of_mem_starts {name : String} (h : name ∈ stateNames a.starts) :
    name ∈ a.names := by
  obtain ⟨p, hp, rfl⟩ := List.mem_map.1 h
  exact List.mem_map_of_mem (List.mem_filter.1 hp).1

/-- The search for an accepted word meets no states but those of the automaton. -/
theorem endsBy_ways (a : Automaton) :
    BreadthFirst.EndsBy a.ways a.states.length (stateNames a.starts) :=
  ⟨nodup_stateNames_starts a, a.names, fun _ => mem_names_of_mem_starts,
    fun _ _ _ => mem_names_of_mem_ways, (length_names a).le⟩

/-- The labels of a visit are read on a path from a start state to its node. -/
theorem exists_path_of_mem_visits {v : Visit String (Option Char)} (h : v ∈ a.visits) :
    ∃ p ∈ a.starts, Path a Label.pieces p.name (v.labels.filterMap id) v.node := by
  obtain ⟨_, hs, hwalk⟩ := a.endsBy_ways.walk_of_mem_search h
  obtain ⟨p, hp, rfl⟩ := List.mem_map.1 hs
  exact ⟨p, hp, (path_of_walk (mem_names_of_mem_starts hs) hwalk).2⟩

/-- Every state that a path from a start state leads to is found. -/
theorem exists_visit_of_path {p : State} (hp : p ∈ a.starts) {w : List Char} {q : String}
    (h : Path a Label.pieces p.name w q) : ∃ v ∈ a.visits, v.node = q := by
  obtain ⟨labels, hwalk, -⟩ := exists_walk_of_path h
  have hreaches : BreadthFirst.Reaches a.ways (stateNames a.starts) q :=
    ⟨p.name, List.mem_map_of_mem hp, labels, hwalk⟩
  exact List.mem_map.1 ((a.endsBy_ways.mem_nodes_iff q).2 hreaches)

/-- A word that is found is read on the way to an accepting state. -/
theorem exists_visit_of_witness? {w : List Char} (h : a.witness? = some w) :
    ∃ v ∈ a.visits, ∃ q ∈ a.acceptings, q.name = v.node ∧ v.labels.filterMap id = w := by
  obtain ⟨v, hfind, hw⟩ := Option.map_eq_some_iff.1 h
  have haccepting := List.find?_some hfind
  obtain ⟨q, hq, hname⟩ := (isAccepting_iff a v.node).1 haccepting
  exact ⟨v, List.mem_of_find?_eq_some hfind, q, hq, hname, hw⟩

/-- A word that is found is in the language. -/
theorem mem_language_of_witness? {w : List Char} (h : a.witness? = some w) : w ∈ a.language := by
  obtain ⟨v, hv, q, hq, hname, rfl⟩ := exists_visit_of_witness? h
  obtain ⟨p, hp, hpath⟩ := exists_path_of_mem_visits hv
  exact ⟨p, hp, q, hq, hname ▸ hpath⟩

/-- No word is found only if the language is empty. -/
theorem witness?_eq_none_iff_language (a : Automaton) :
    a.witness? = none ↔ ∀ w, w ∉ a.language := by
  constructor
  · rintro hnone w ⟨p, hp, q, hq, hpath⟩
    obtain ⟨v, hv, hnode⟩ := exists_visit_of_path hp hpath
    rw [witness?_eq, Option.map_eq_none_iff, List.find?_eq_none] at hnone
    exact hnone v hv ((isAccepting_iff a v.node).2 ⟨q, hq, hnode.symm⟩)
  · intro hempty
    cases hw : a.witness? with
    | none => rfl
    | some w => exact absurd (mem_language_of_witness? hw) (hempty w)

/-! ## Complete deterministic automata -/

theorem readingLe_trans (x y z : Option Char) (hxy : readingLe x y = true)
    (hyz : readingLe y z = true) : readingLe x z = true := by
  cases x with
  | none => rfl
  | some c =>
      cases y with
      | none => cases hxy
      | some d =>
          cases z with
          | none => cases hyz
          | some e =>
              have hle := Char.le_trans (of_decide_eq_true hxy) (of_decide_eq_true hyz)
              exact decide_eq_true hle

theorem readingLe_total (x y : Option Char) : (readingLe x y || readingLe y x) = true := by
  cases x with
  | none => rfl
  | some c =>
      cases y with
      | none => rfl
      | some d => simpa [readingLe] using Char.le_total c d

theorem lt_of_readingLe {x y : Option Char} (h : readingLe x y = true) (hne : x ≠ y) : x < y := by
  cases x with
  | none =>
      cases y with
      | none => exact absurd rfl hne
      | some d => exact trivial
  | some c =>
      cases y with
      | none => cases h
      | some d =>
          refine Char.not_le.1 fun hdc => hne ?_
          rw [Char.le_antisymm (of_decide_eq_true h) hdc]

instance instIsTransReading : IsTrans (Option Char) (· < ·) where
  trans x y z := by
    cases x <;> cases y <;> cases z <;> simp
    exact Char.lt_trans

theorem lex_of_map_some {x w : List Char} (h : List.Lex (· < ·) (x.map some) (w.map some)) :
    List.Lex (· < ·) x w := by
  induction x generalizing w with
  | nil =>
      cases w with
      | nil => cases h
      | cons d w => exact .nil
  | cons c x ih =>
      cases w with
      | nil => cases h
      | cons d w =>
          cases h with
          | cons h => exact .cons (ih h)
          | rel h => exact .rel h

/-- Words come in the order of what is read for them. -/
theorem notAfter_of_map_some {x w : List Char}
    (h : NotAfter (· < ·) (x.map some) (w.map some)) : NotAfter (· < ·) x w := by
  rcases (Relation.reflGen_iff _ _ _).1 h with heq | hlt
  · rw [List.map_injective_iff.2 (Option.some_injective Char) heq]
  · refine .single ?_
    rw [List.shortlex_def, List.length_map, List.length_map] at hlt
    exact List.shortlex_def.2 (hlt.imp id fun h => ⟨h.1, lex_of_map_some h.2⟩)

namespace IsComplete

variable {S : Alphabet}

/-- No token stands twice on the transitions that leave a state. -/
theorem nodup_leavingTokens (h : a.IsComplete S) (name : String) :
    (a.leavingTokens name).Nodup := by
  rw [List.nodup_iff_count_le_one]
  intro token
  by_cases hmem : token ∈ a.leavingTokens name
  · obtain ⟨u, hleaving, htoken⟩ := List.mem_flatMap.1 hmem
    obtain ⟨hu, rfl⟩ := (mem_outgoing a name u).1 hleaving
    obtain ⟨c, -, rfl⟩ := h.isSymbolToken u hu token htoken
    rw [h.count_leaving u.source (h.ends u hu).1 c]
    split <;> omega
  · rw [List.count_eq_zero_of_not_mem hmem]
    omega

/-- All that is read is a symbol that stands on the transition. -/
theorem exists_token (h : a.IsComplete S) {u : Transition} (hu : u ∈ a.transitions)
    {r : Option Char} (hr : r ∈ readings u.label) :
    ∃ c, r = some c ∧ String.singleton c ∈ u.label.tokens := by
  rcases (mem_readings_iff u.label r).1 hr with ⟨-, hε⟩ | ⟨c, hc, rfl⟩
  · obtain ⟨c, hc, heq⟩ := h.isSymbolToken u hu _ (List.contains_iff_mem.1 hε)
    exact absurd heq.symm (singleton_ne_epsilonToken hc)
  · exact ⟨c, rfl, ((Label.mem_symbols_iff _ c).1 (mem_of_leastSymbol? hc)).2⟩

/-- The ways that leave a state differ in what is read on them. -/
theorem sorted_ways (h : a.IsComplete S) : BreadthFirst.Sorted (· < ·) a.ways := by
  intro name
  have hsorted : (a.ways name).Pairwise fun d e => readingLe d.1 e.1 = true :=
    List.pairwise_mergeSort (fun d e f => readingLe_trans d.1 e.1 f.1)
      (fun d e => readingLe_total d.1 e.1) _
  have hapart : (a.ways name).Pairwise fun d e => d.1 ≠ e.1 := by
    refine ((ways_perm a name).pairwise_iff fun hne => Ne.symm hne).2 ?_
    rw [List.pairwise_flatMap]
    refine ⟨fun t _ => pairwise_waysOver a t, ?_⟩
    -- two transitions have no token in common, so they cannot be followed on the same symbol
    refine ((List.nodup_flatMap.1 (h.nodup_leavingTokens name)).2).imp_of_mem ?_
    intro t u ht hu hdisjoint d hd e he heq
    have hdr := ((mem_waysOver_iff a t d.1 d.2).1 hd).2.2
    have her := ((mem_waysOver_iff a u e.1 e.2).1 he).2.2
    obtain ⟨c, hc, hct⟩ := h.exists_token ((mem_outgoing a name t).1 ht).1 hdr
    obtain ⟨c', hc', hcu⟩ := h.exists_token ((mem_outgoing a name u).1 hu).1 her
    rw [hc, hc', Option.some.injEq] at heq
    exact hdisjoint hct (heq ▸ hcu)
  exact (hsorted.and hapart).imp fun hde => lt_of_readingLe hde.1 hde.2

/-- On the ways every step reads a symbol. -/
theorem map_some_of_walk (h : a.IsComplete S) {p q : String} {labels : List (Option Char)}
    (hw : Walk a.ways p labels q) : (labels.filterMap id).map some = labels := by
  induction hw with
  | nil => rfl
  | @snoc labels q q' r _ hmem ih =>
      obtain ⟨t, ht, -, -, -, hr⟩ := (mem_ways_iff a q r q').1 hmem
      obtain ⟨c, rfl, -⟩ := h.exists_token ht hr
      rw [List.filterMap_append, List.map_append, ih]
      rfl

/-- There is one start state, and the paths that lead from it to an accepting state read the
accepted words. -/
theorem exists_starts_eq (h : a.IsComplete S) : ∃ p, p.name ∈ a.names ∧ a.starts = [p] ∧
    ∀ w, a.verdict w = .accept ↔ ∃ q ∈ a.acceptings, Path a Label.pieces p.name w q.name := by
  obtain ⟨p, hp, hget⟩ := h.exists_start
  refine ⟨p, List.mem_of_getElem? hget, hp, fun w => ?_⟩
  rw [h.verdict_eq, Table.verdict_eq_verdictFrom]
  exact (h.mem_languageFrom_iff hget w).symm

/-- The accepted words are the language. -/
theorem verdict_eq_accept_iff (h : a.IsComplete S) (w : List Char) :
    a.verdict w = .accept ↔ w ∈ a.language := by
  obtain ⟨p, -, hstarts, hverdict⟩ := h.exists_starts_eq
  rw [hverdict, language, mem_languageOver, hstarts]
  simp

/-- The word found is the first of the accepted words. -/
theorem isFirst_of_witness? (h : a.IsComplete S) {w : List Char} (hw : a.witness? = some w) :
    IsFirst (fun v => a.verdict v = .accept) w := by
  refine ⟨(h.verdict_eq_accept_iff w).2 (mem_language_of_witness? hw), fun v hv => ?_⟩
  obtain ⟨p, hp, hstarts, hverdict⟩ := h.exists_starts_eq
  obtain ⟨q, hq, hpath⟩ := (hverdict v).1 hv
  obtain ⟨labels, hwalk', -, hle⟩ := exists_walk_of_path hpath
  obtain ⟨u, hfind, rfl⟩ := Option.map_eq_some_iff.1 hw
  have hends := a.endsBy_ways
  rw [hstarts] at hfind hends
  obtain ⟨s, hs, hwalk⟩ := hends.walk_of_mem_search (List.mem_of_find?_eq_some hfind)
  have hfirst := hends.notAfter_of_find? h.sorted_ways hfind hwalk'
    ((isAccepting_iff a q.name).2 ⟨q, hq, rfl⟩)
  rw [← h.map_some_of_walk hwalk, ← h.map_some_of_walk hwalk'] at hfirst
  exact (Relation.reflGen_iff _ _ _).1 ((notAfter_of_map_some hfirst).trans hle)

/-- No word is found only if none is accepted. -/
theorem witness?_eq_none_iff (h : a.IsComplete S) :
    a.witness? = none ↔ ∀ w, a.verdict w ≠ .accept := by
  rw [witness?_eq_none_iff_language]
  exact forall_congr' fun w => not_congr (h.verdict_eq_accept_iff w).symm

end IsComplete

end FiniteState.Automaton
