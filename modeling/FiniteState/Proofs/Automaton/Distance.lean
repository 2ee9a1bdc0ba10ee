import Mathlib.Data.List.Permutation
import FiniteState.Proofs.Automaton.Simulation
import FiniteState.Proofs.Automaton.Witness

/-!
# Distance in transitions

The search for an accepted word goes through the states in the order of their distance from the
start states, counted in transitions. So the word found is read on a path with the fewest
transitions of all paths from a start state to an accepting state. Where every transition reads a
symbol this is a shortest accepted word. A transition that reads nothing is counted like any
other, though: two of them are farther than one symbol, and the word found is then longer than
need be.
-/

namespace FiniteState.Automaton

/-- Paths that follow `n` transitions. -/
inductive CountedPath (a : Automaton) : Nat → String → List Char → String → Prop
  | nil (name : String) : CountedPath a 0 name [] name
  | cons {n : Nat} {t : Transition} {v w : List Char} {last : String} (ht : t ∈ a.transitions)
      (hsource : t.source ∈ a.names) (htarget : t.target ∈ a.names) (hv : v ∈ t.label.pieces)
      (hw : CountedPath a n t.target w last) : CountedPath a (n + 1) t.source (v ++ w) last

/-- The word leads over `n` transitions from a start state to an accepting state. -/
def AcceptsIn (a : Automaton) (n : Nat) (w : List Char) : Prop :=
  ∃ p ∈ a.starts, ∃ q ∈ a.acceptings, CountedPath a n p.name w q.name

/-- No transition can be followed without reading a symbol. -/
def AlwaysReads (a : Automaton) : Prop :=
  ∀ t ∈ a.transitions, t.source ∈ a.names → t.target ∈ a.names → t.label.hasEpsilon = false

variable {a : Automaton} {p q r : String} {v w : List Char} {m n : Nat}

namespace CountedPath

theorem append (hv : CountedPath a m p v q) (hw : CountedPath a n q w r) :
    CountedPath a (m + n) p (v ++ w) r := by
  induction hv with
  | nil => rwa [Nat.zero_add]
  | cons ht hsource htarget hv _ ih =>
      rw [List.append_assoc, Nat.add_right_comm]
      exact .cons ht hsource htarget hv (ih hw)

/-- Every path follows some number of transitions. -/
theorem exists_iff_path (p : String) (w : List Char) (q : String) :
    (∃ n, CountedPath a n p w q) ↔ Path a Label.pieces p w q := by
  constructor
  · rintro ⟨n, h⟩
    induction h with
    | nil p => exact .nil p
    | cons ht hsource htarget hv _ ih => exact .cons ht hsource htarget hv ih
  · intro h
    induction h with
    | nil p => exact ⟨0, .nil p⟩
    | cons ht hsource htarget hv _ ih =>
        obtain ⟨n, hn⟩ := ih
        exact ⟨n + 1, .cons ht hsource htarget hv hn⟩

/-- One symbol is read on each transition if nothing less can be. -/
theorem length_eq (ha : a.AlwaysReads) (h : CountedPath a n p w q) : w.length = n := by
  induction h with
  | nil p => rfl
  | @cons n t v w q ht hsource htarget hv _ ih =>
      rcases (Label.mem_pieces_iff t.label v).1 hv with ⟨-, hε⟩ | ⟨c, -, rfl⟩
      · rw [ha t ht hsource htarget] at hε
        cases hε
      · rw [List.length_append, ih, List.length_singleton, Nat.add_comm]

/-- Beside every path there is a walk of the search with as many steps. -/
theorem exists_walk (h : CountedPath a n p w q) :
    ∃ labels, Walk a.ways p labels q ∧ labels.length = n := by
  induction h with
  | nil p => exact ⟨[], .nil, rfl⟩
  | @cons n t v w q ht hsource htarget hv _ ih =>
      obtain ⟨labels, hwalk, hlen⟩ := ih
      have hreading : ∃ r, r ∈ readings t.label := by
        rcases (Label.mem_pieces_iff t.label v).1 hv with ⟨-, hε⟩ | ⟨d, hd, -⟩
        · exact ⟨none, (mem_readings_iff t.label none).2 (.inl ⟨rfl, hε⟩)⟩
        · obtain ⟨c, hc, -⟩ := exists_leastSymbol? hd
          exact ⟨some c, (mem_readings_iff t.label _).2 (.inr ⟨c, hc, rfl⟩)⟩
      obtain ⟨r, hr⟩ := hreading
      have hway : (r, t.target) ∈ a.ways t.source :=
        (mem_ways_iff a _ r _).2 ⟨t, ht, rfl, rfl, htarget, hr⟩
      exact ⟨r :: labels, Walk.cons hway hwalk, congrArg (· + 1) hlen⟩

/-- Every walk of the search is a path with as many transitions as it has labels. -/
theorem of_walk {labels : List (Option Char)} (hp : p ∈ a.names) (h : Walk a.ways p labels q) :
    CountedPath a labels.length p (labels.filterMap id) q := by
  induction h with
  | nil => exact .nil p
  | @snoc labels q q' r hw hmem ih =>
      have hq := (path_of_walk hp hw).1
      obtain ⟨t, ht, rfl, rfl, htarget, hr⟩ := (mem_ways_iff a q r q').1 hmem
      have hlast := CountedPath.cons ht hq htarget (mem_pieces_of_mem_readings hr) (.nil t.target)
      rw [List.length_append, List.filterMap_append]
      cases r <;> exact ih.append hlast

end CountedPath

theorem accepts_iff_exists_acceptsIn (a : Automaton) (w : List Char) :
    a.accepts w = true ↔ ∃ n, a.AcceptsIn n w := by
  rw [accepts_iff_mem_language, language, mem_languageOver]
  constructor
  · rintro ⟨p, hp, q, hq, hpath⟩
    obtain ⟨n, hn⟩ := (CountedPath.exists_iff_path _ _ _).2 hpath
    exact ⟨n, p, hp, q, hq, hn⟩
  · rintro ⟨n, p, hp, q, hq, hn⟩
    exact ⟨p, hp, q, hq, (CountedPath.exists_iff_path _ _ _).1 ⟨n, hn⟩⟩

/-- The word found is accepted over the fewest transitions. -/
theorem exists_acceptsIn_of_witness? (h : a.witness? = some w) :
    ∃ n, a.AcceptsIn n w ∧ ∀ m v, a.AcceptsIn m v → n ≤ m := by
  obtain ⟨u, hfind, rfl⟩ := Option.map_eq_some_iff.1 h
  obtain ⟨_, hs, hwalk⟩ := a.endsBy_ways.walk_of_mem_search (List.mem_of_find?_eq_some hfind)
  obtain ⟨p, hp, rfl⟩ := List.mem_map.1 hs
  have haccepting := List.find?_some hfind
  obtain ⟨q, hq, hname⟩ := (isAccepting_iff a u.node).1 haccepting
  refine ⟨u.labels.length, ⟨p, hp, q, hq, ?_⟩, ?_⟩
  · rw [hname]
    exact .of_walk (mem_names_of_mem_starts hs) hwalk
  · rintro m v ⟨p', hp', q', hq', hpath⟩
    obtain ⟨labels, hwalk', rfl⟩ := hpath.exists_walk
    exact a.endsBy_ways.length_le_of_find? hfind (List.mem_map_of_mem hp') hwalk'
      ((isAccepting_iff a q'.name).2 ⟨q', hq', rfl⟩)

/-- The word found is read on a path with the fewest transitions from a start state to an accepting
state. No accepted word is shorter if every transition reads a symbol. -/
theorem witness?_fewest_transitions (h : a.witness? = some w) :
    (∃ n, a.AcceptsIn n w ∧ ∀ m v, a.AcceptsIn m v → n ≤ m) ∧
      (a.AlwaysReads → ∀ v, a.accepts v = true → w.length ≤ v.length) := by
  obtain ⟨n, hn, hfewest⟩ := exists_acceptsIn_of_witness? h
  refine ⟨⟨n, hn, hfewest⟩, fun ha v hv => ?_⟩
  obtain ⟨m, hm⟩ := (accepts_iff_exists_acceptsIn a v).1 hv
  have hle := hfewest m v hm
  obtain ⟨p, -, q, -, hpath⟩ := hn
  obtain ⟨p', -, q', -, hpath'⟩ := hm
  rwa [← hpath.length_eq ha, ← hpath'.length_eq ha] at hle

/-- Two start states, of which the second is nearer to the accepting state. -/
def nearAndFar : Automaton :=
  ofLists [⟨"P", true, false, none⟩, ⟨"Q", true, false, none⟩, ⟨"R", false, true, none⟩]
    [⟨"P", "Q", ⟨["a"]⟩⟩, ⟨"Q", "R", ⟨["c", "b"]⟩⟩, ⟨"Q", "R", ⟨["d"]⟩⟩]

/-- No word shorter than the one found is accepted from either start. -/
theorem witness?_nearAndFar : nearAndFar.witness? = some ['b'] ∧ nearAndFar.AlwaysReads ∧
    ∀ v, nearAndFar.accepts v = true → 1 ≤ v.length := by
  have hword : nearAndFar.witness? = some ['b'] := by cbv
  have hreads : nearAndFar.AlwaysReads := by
    have hall : ∀ t ∈ nearAndFar.transitions, t.label.hasEpsilon = false := by decide +kernel
    exact fun t ht _ _ => hall t ht
  exact ⟨hword, hreads, (witness?_fewest_transitions hword).2 hreads⟩

/-- The accepting state is reached over one symbol, or over two transitions that read nothing. -/
def silentDetour : Automaton :=
  ofLists [⟨"S", true, false, none⟩, ⟨"E", false, false, none⟩, ⟨"F", false, true, none⟩]
    [⟨"S", "E", ⟨["ε"]⟩⟩, ⟨"E", "F", ⟨["ε"]⟩⟩, ⟨"S", "F", ⟨["a"]⟩⟩]

/-- The word found need not be a shortest accepted word: one symbol is nearer than two transitions
that read nothing. -/
theorem not_witness?_shortest : ¬ ∀ (a : Automaton) (w : List Char), a.witness? = some w →
    ∀ v, a.accepts v = true → w.length ≤ v.length := by
  intro h
  have hword : silentDetour.witness? = some ['a'] := by cbv
  have haccepts : silentDetour.accepts [] = true := by decide +kernel
  have hle := h silentDetour ['a'] hword [] haccepts
  exact absurd hle (by decide)

end FiniteState.Automaton
