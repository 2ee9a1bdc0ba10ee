import FiniteState.Proofs.Net.Automaton
import FiniteState.Proofs.Net.Growth

/-!
# The shape of the automaton of an expression

At most two states are added for a node of the tree, and what else an automaton of an expression
looks like is read off `Net.Tidy`. A repetition lets its body be skipped, which would be wrong if
the entry of the body could be reached from inside of it, or its exit could be left again;
`skippable_setApart` says that this is never so. `Adds` says which parts are added to which nets on
the way to an expression, so that it is known of every repetition in the tree.
-/

namespace FiniteState

/-- No token is twice on the label of an arc, unless `ε` is one of its symbols. -/
theorem Arc.nodup_tokens_label {arc : Arc} (h : ¬ epsilonChar ∈ arc.symbols) :
    arc.label.tokens.Nodup := by
  have hdistinct : arc.symbols.symbols.Nodup := arc.symbols.increasing.imp Char.ne_of_lt
  have hsymbols : (arc.symbols.symbols.map String.singleton).Nodup :=
    hdistinct.map singleton_injective
  rw [label]
  split
  · rw [← List.concat_eq_append]
    refine hsymbols.concat fun hmem => h ?_
    rwa [← singleton_epsilonChar, mem_map_singleton] at hmem
  · rwa [List.append_nil]

/-- What the automaton of a net looks like: its states are numbered, one of them starts and another
one accepts, and the transitions join states, no two of them the same two. -/
structure Automaton.HasNetShape (a : Automaton) (stem : String) : Prop where
  names_eq : a.names = (List.range a.states.length).map (Net.stateName stem)
  exists_ends : ∃ s t, a.starts = [s] ∧ a.acceptings = [t] ∧ s.name ≠ t.name
  joins : ∀ t ∈ a.transitions, t.source ∈ a.names ∧ t.target ∈ a.names
  nodup_ends : (a.transitions.map fun t => (t.source, t.target)).Nodup

namespace Net

section

variable {S : List Char} {n : Net} {f : Fragment} (stem : String)

theorem filter_range_eq {k size : Nat} (hk : k < size) :
    (List.range size).filter (fun i => i == k) = [k] := by
  have hcount : (List.range size).count k = 1 :=
    List.count_eq_one_of_mem List.nodup_range (List.mem_range.2 hk)
  rw [List.filter_beq, hcount]
  rfl

/-- A property of states that one number has is that of one state. -/
theorem filter_states {p : State → Bool} {k : Nat} (hk : k < n.size)
    (hp : ∀ i, p ⟨stateName stem i, i == f.start, i == f.accept, none⟩ = (i == k)) :
    (n.states stem f).filter p = [⟨stateName stem k, k == f.start, k == f.accept, none⟩] := by
  have hcomp : p ∘ (fun i => State.mk (stateName stem i) (i == f.start) (i == f.accept) none) =
      fun i => i == k :=
    funext hp
  rw [states, List.filter_map, hcomp, filter_range_eq hk]
  rfl

theorem starts_automaton (hf : f.start < n.size) :
    (Automaton.ofLists (n.states stem f) (n.transitions stem)).starts =
      [⟨stateName stem f.start, f.start == f.start, f.start == f.accept, none⟩] := by
  rw [Automaton.starts, states_automaton]
  exact filter_states stem hf fun _ => rfl

theorem acceptings_automaton (hf : f.accept < n.size) :
    (Automaton.ofLists (n.states stem f) (n.transitions stem)).acceptings =
      [⟨stateName stem f.accept, f.accept == f.start, f.accept == f.accept, none⟩] := by
  rw [Automaton.acceptings, states_automaton]
  exact filter_states stem hf fun _ => rfl

/-- A tidy net with a fragment whose entry is not its exit gives an automaton of this shape. -/
theorem Tidy.hasNetShape (hn : n.Tidy S) (hf : n.Has f) (hne : f.start ≠ f.accept) :
    (Automaton.ofLists (n.states stem f) (n.transitions stem)).HasNetShape stem := by
  have hstates := states_automaton n stem f
  have hlength : (n.states stem f).length = n.size := by
    rw [states, List.length_map, List.length_range]
  have hnames : (Automaton.ofLists (n.states stem f) (n.transitions stem)).names =
      (List.range n.size).map (stateName stem) := by
    rw [Automaton.names, hstates, stateNames_states]
  refine ⟨?_, ?_, ?_, ?_⟩
  · rw [hnames, hstates, hlength]
  · exact ⟨_, _, starts_automaton stem hf.1, acceptings_automaton stem hf.2,
      fun he => hne (stateName_injective stem he)⟩
  · intro t ht
    obtain ⟨arc, harc, rfl⟩ := List.mem_map.1 ht
    have hlt := hn.ends_lt arc.ends (List.mem_map_of_mem harc)
    rw [hnames]
    exact ⟨List.mem_map_of_mem (List.mem_range.2 hlt.1),
      List.mem_map_of_mem (List.mem_range.2 hlt.2)⟩
  · have hends : (n.transitions stem).map (fun t => (t.source, t.target)) =
        n.ends.map (Prod.map (stateName stem) (stateName stem)) := by
      rw [transitions, ends, List.map_map, List.map_map]
      rfl
    have hinj := stateName_injective stem
    rw [Automaton.transitions_ofLists, hends]
    exact hn.nodup_ends.map (hinj.prodMap hinj)

theorem Tidy.nodup_tokens (hn : n.Tidy S) (hS : ¬ epsilonChar ∈ S) :
    ∀ t ∈ n.transitions stem, t.label.tokens.Nodup := by
  intro t ht
  obtain ⟨arc, harc, rfl⟩ := List.mem_map.1 ht
  exact Arc.nodup_tokens_label fun hε => hS (hn.symbols arc harc _ hε)

end

/-! ## Skipping a fragment -/

/-- A repetition may let the fragment `f` be skipped: no arc leads to its entry and none leaves its
exit. When the way around it is added, the way back is the only arc that does either. -/
structure Skippable (m : Net) (f : Fragment) : Prop where
  not_entered : m.hasIncoming f.start = false
  not_left : m.hasOutgoing f.accept = false
  only_back : ∀ p ∈ (m.addSilent f.accept f.start).ends,
    p.2 = f.start ∨ p.1 = f.accept → p = (f.accept, f.start)

theorem skippable_of_not_joined {m : Net} {f : Fragment}
    (hin : ∀ p ∈ m.ends, p.2 ≠ f.start) (hout : ∀ p ∈ m.ends, p.1 ≠ f.accept) :
    m.Skippable f where
  not_entered := (hasIncoming_eq_false_iff m f.start).2 hin
  not_left := (hasOutgoing_eq_false_iff m f.accept).2 hout
  only_back := by
    intro p hp hends
    rcases (mem_ends_addSilent m f.accept f.start p).1 hp with hp | heq
    · rcases hends with h | h
      · exact absurd h (hin p hp)
      · exact absurd h (hout p hp)
    · exact heq

/-- The fragment that a repetition goes round may be skipped. -/
theorem skippable_setApart {S : List Char} {n : Net} {f : Fragment} (hn : n.Tidy S)
    (hf : n.Has f) : (n.setApart f).2.Skippable (n.setApart f).1 := by
  rw [setApart]
  split
  · -- The new entry and the new exit are no states of the old net, and of the two arcs that are
    -- added one leaves the entry and one leads to the exit.
    have hold : ∀ p ∈ n.addFragment.2.ends, p.1 < n.size ∧ p.2 < n.size := hn.ends_lt
    have hfstart := hf.1
    have hfaccept := hf.2
    refine skippable_of_not_joined (fun p hp => ?_) (fun p hp => ?_)
    · change p.2 ≠ n.size
      rcases (mem_ends_enclose n.addFragment.2 n.addFragment.1 f p).1 hp with hp | rfl | rfl
      · exact Nat.ne_of_lt (hold p hp).2
      · exact Nat.ne_of_lt hfstart
      · exact Nat.ne_of_gt (Nat.lt_succ_self n.size)
    · change p.1 ≠ n.size + 1
      rcases (mem_ends_enclose n.addFragment.2 n.addFragment.1 f p).1 hp with hp | rfl | rfl
      · exact Nat.ne_of_lt (Nat.lt_succ_of_lt (hold p hp).1)
      · exact Nat.ne_of_lt (Nat.lt_succ_self n.size)
      · exact Nat.ne_of_lt (Nat.lt_succ_of_lt hfaccept)
  · next hisolate =>
      have hnone : n.hasIncoming f.start = false ∧ n.hasOutgoing f.accept = false := by
        simpa [mustIsolate] using hisolate
      exact skippable_of_not_joined ((hasIncoming_eq_false_iff n f.start).1 hnone.1)
        ((hasOutgoing_eq_false_iff n f.accept).1 hnone.2)

/-! ## The number of states -/

theorem size_star_le (n : Net) (f : Fragment) : (n.star f).2.size ≤ n.size + 2 := by
  rw [star]
  split
  · exact Nat.le_refl _
  · exact Nat.le_add_right _ 2

theorem size_sequence_le (n : Net) (fs : List Fragment) :
    (n.sequence fs).2.size ≤ n.size + 2 := by
  cases fs with
  | nil => exact Nat.le_refl _
  | cons f fs =>
      change (n.chain (f :: fs)).size ≤ n.size + 2
      rw [size_chain]
      exact Nat.le_add_right _ 2

end Net

namespace Regex

open Net

mutual

/-- The number of nodes of a tree. -/
def nodes : Regex → Nat
  | .empty => 1
  | .char _ => 1
  | .concat parts => nodesAll parts + 1
  | .alt parts => nodesAll parts + 1
  | .many body => nodes body + 1
  | .many1 body => nodes body + 1

/-- The number of nodes of a list of trees. -/
def nodesAll : List Regex → Nat
  | [] => 0
  | r :: rs => nodes r + nodesAll rs

end

mutual

theorem size_addTo_le : ∀ (r : Regex) (n : Net),
    (addTo n r).2.size ≤ n.size + 2 * r.nodes
  | .empty, n => by
      rw [addTo, nodes]
      exact Nat.le_refl _
  | .char c, n => by
      rw [addTo, nodes]
      exact Nat.le_refl _
  | .concat parts, n => by
      have hparts := size_addParts_le parts n
      have hseq := (addParts n parts).2.size_sequence_le (addParts n parts).1
      rw [addTo, nodes]
      omega
  | .alt parts, n => by
      have hparts := size_addChoices_le parts n.addFragment.2 n.addFragment.1
      have hfresh : n.addFragment.2.size = n.size + 2 := rfl
      rw [addTo, nodes]
      dsimp only
      omega
  | .many body, n => by
      have hbody := size_addTo_le body n
      have hstar := (addTo n body).2.size_star_le (addTo n body).1
      rw [addTo, nodes]
      omega
  | .many1 body, n => by
      have hbody := size_addTo_le body n
      have hplus : ((addTo n body).2.plus (addTo n body).1).2.size = (addTo n body).2.size := rfl
      rw [addTo, nodes]
      omega

theorem size_addParts_le : ∀ (rs : List Regex) (n : Net),
    (addParts n rs).2.size ≤ n.size + 2 * nodesAll rs
  | [], n => by
      rw [addParts, nodesAll]
      exact Nat.le_refl _
  | r :: rs, n => by
      have hfirst := size_addTo_le r n
      have hrest := size_addParts_le rs (addTo n r).2
      rw [addParts, nodesAll]
      dsimp only
      omega

theorem size_addChoices_le : ∀ (rs : List Regex) (n : Net) (o : Fragment),
    (addChoices n o rs).size ≤ n.size + 2 * nodesAll rs
  | [], n, o => by
      rw [addChoices, nodesAll]
      exact Nat.le_refl _
  | r :: rs, n, o => by
      have hfirst := size_addTo_le r n
      have henclose : ((addTo n r).2.enclose o (addTo n r).1).size = (addTo n r).2.size := rfl
      have hrest := size_addChoices_le rs ((addTo n r).2.enclose o (addTo n r).1) o
      rw [addChoices, nodesAll]
      omega

end

/-! ## The parts of an expression, and the nets they are added to -/

/-- `Adds (n, r) (m, s)` says that to add `r` to the net `n`, its part `s` is added to the net
`m`. -/
inductive Adds : Net × Regex → Net × Regex → Prop
  | concat (n : Net) (before : List Regex) (part : Regex) (after : List Regex) :
      Adds (n, .concat (before ++ part :: after)) ((addParts n before).2, part)
  | alt (n : Net) (before : List Regex) (part : Regex) (after : List Regex) :
      Adds (n, .alt (before ++ part :: after))
        (addChoices n.addFragment.2 n.addFragment.1 before, part)
  | many (n : Net) (body : Regex) : Adds (n, .many body) (n, body)
  | many1 (n : Net) (body : Regex) : Adds (n, .many1 body) (n, body)

theorem addParts_append (n : Net) (rs ss : List Regex) :
    (addParts n (rs ++ ss)).2 = (addParts (addParts n rs).2 ss).2 := by
  induction rs generalizing n with
  | nil => rw [List.nil_append, addParts]
  | cons r rs ih =>
      rw [List.cons_append, addParts, addParts]
      exact ih (addTo n r).2

theorem addChoices_append (n : Net) (o : Fragment) (rs ss : List Regex) :
    addChoices n o (rs ++ ss) = addChoices (addChoices n o rs) o ss := by
  induction rs generalizing n with
  | nil => rw [List.nil_append, addChoices]
  | cons r rs ih =>
      rw [List.cons_append, addChoices, addChoices]
      exact ih _

theorem literalsAll_subset_iff (before : List Regex) (part : Regex) (after : List Regex)
    (S : List Char) : literalsAll (before ++ part :: after) ⊆ S ↔
      literalsAll before ⊆ S ∧ part.literals ⊆ S ∧ literalsAll after ⊆ S := by
  induction before with
  | nil => simp [literalsAll]
  | cons r before ih =>
      rw [List.cons_append, literalsAll, literalsAll, List.append_subset, List.append_subset, ih,
        and_assoc]

/-- The net that a part is added to is made on the way to the whole, and so is the net with the
part. -/
theorem Adds.steps {S : List Char} {p q : Net × Regex} (h : Adds p q) (hp : p.1.Tidy S)
    (hS : p.2.literals ⊆ S) : q.2.literals ⊆ S ∧ Steps S p.1 q.1 ∧
      Steps S (addTo q.1 q.2).2 (addTo p.1 p.2).2 := by
  cases h with
  | concat n before part after =>
      -- The parts before, the part itself, the parts after it, and then the joints.
      obtain ⟨hbefore, hpart, hafter⟩ := (literalsAll_subset_iff before part after S).1 hS
      have hto := steps_addParts before hp hbefore
      have hthrough := steps_addTo part (hto.tidy hp) hpart
      have hon := steps_addParts after (hthrough.tidy (hto.tidy hp)) hafter
      obtain ⟨-, -, hlaid⟩ := laid_addParts (before ++ part :: after) hp.bounded
      have hlast : (addParts n (before ++ part :: after)).2 =
          (addParts (addTo (addParts n before).2 part).2 after).2 := by
        rw [addParts_append, addParts]
      refine ⟨hpart, hto, ?_⟩
      rw [addTo]
      exact (hlast ▸ hon).trans (steps_sequence hlaid.has)
  | alt n before part after =>
      -- Each part is joined to the outer fragment before the next one is added.
      obtain ⟨hbefore, hpart, hafter⟩ := (literalsAll_subset_iff before part after S).1 hS
      have hfresh : Step S n n.addFragment.2 := .addFragment n
      have houter := n.has_addFragment
      have hto := steps_addChoices before (hfresh.tidy hp) houter hbefore
      have htidy := hto.tidy (hfresh.tidy hp)
      have hthrough := steps_addTo part htidy hpart
      have hinner := (realises_addTo part htidy.bounded).has
      have henclose := steps_enclose (S := S) (hthrough.has (hto.has houter)) hinner
      have hon := steps_addChoices after (henclose.tidy (hthrough.tidy htidy))
        (henclose.has (hthrough.has (hto.has houter))) hafter
      refine ⟨hpart, .head hfresh hto, ?_⟩
      rw [addTo]
      dsimp only
      rw [addChoices_append, addChoices]
      exact henclose.trans hon
  | many n body =>
      refine ⟨hS, .refl, ?_⟩
      have hhas := (realises_addTo body hp.bounded).has
      rw [addTo]
      exact steps_star hhas
  | many1 n body =>
      refine ⟨hS, .refl, ?_⟩
      have hhas := (realises_addTo body hp.bounded).has
      rw [addTo]
      exact steps_addSilent hhas.2 hhas.1

theorem steps_of_adds {S : List Char} {p q : Net × Regex} (h : Relation.ReflTransGen Adds p q)
    (hp : p.1.Tidy S) (hS : p.2.literals ⊆ S) : q.2.literals ⊆ S ∧ Steps S p.1 q.1 ∧
      Steps S (addTo q.1 q.2).2 (addTo p.1 p.2).2 := by
  induction h with
  | refl => exact ⟨hS, .refl, .refl⟩
  | tail _ hadds ih =>
      obtain ⟨hliterals, hto, hon⟩ := ih
      obtain ⟨hliterals', hto', hon'⟩ := hadds.steps (hto.tidy hp) hliterals
      exact ⟨hliterals', hto.trans hto', hon'.trans hon⟩

theorem addTo_many (n : Net) (body : Regex) : addTo n (.many body) =
    ((addTo n body).2.setApart (addTo n body).1).2.loopOrSkip
      ((addTo n body).2.setApart (addTo n body).1).1 := by
  rw [addTo]
  exact star_eq _ _

/-- The automaton of an expression has numbered states, two for each node of the tree at most, of
which one starts and another one accepts. Its transitions join states, at most one joins the same
two, and if `ε` is no literal, no token is twice on a label. The net is made step by step, and
whichever repetition is added on the way, no arc leads to the entry of the fragment that may be
skipped or leaves its exit until the ways back and around are added. -/
theorem toAutomaton_shape (r : Regex) (stem : String) :
    (r.toAutomaton stem).HasNetShape stem ∧
    (r.toAutomaton stem).states.length ≤ 2 * r.nodes ∧
    (¬ epsilonChar ∈ r.literals →
      ∀ t ∈ (r.toAutomaton stem).transitions, t.label.tokens.Nodup) ∧
    ∀ (n : Net) (body : Regex), Relation.ReflTransGen Adds (.empty, r) (n, .many body) →
      Steps r.literals .empty n ∧ Steps r.literals (addTo n (.many body)).2 r.net.2 ∧
      ∃ (m : Net) (f : Fragment), (addTo n body).2.setApart (addTo n body).1 = (f, m) ∧
        addTo n (.many body) = m.loopOrSkip f ∧ m.Skippable f := by
  have hempty : Net.empty.Tidy r.literals := tidy_empty r.literals
  have htidy : r.net.2.Tidy r.literals := tidy_addTo hempty (List.Subset.refl _)
  have hrealises := realises_addTo r bounded_empty
  refine ⟨htidy.hasNetShape stem hrealises.has hrealises.start_ne_accept, ?_,
    fun hε => htidy.nodup_tokens stem hε, fun n body h => ?_⟩
  · have hsize := size_addTo_le r .empty
    have hzero : Net.empty.size = 0 := rfl
    rw [toAutomaton, states_automaton, states, List.length_map, List.length_range, net]
    omega
  · obtain ⟨hliterals, hto, hon⟩ := steps_of_adds h hempty (List.Subset.refl _)
    have hn : n.Tidy r.literals := hto.tidy hempty
    have hbody := realises_addTo body hn.bounded
    exact ⟨hto, hon, _, _, rfl, addTo_many n body,
      skippable_setApart (tidy_addTo hn hliterals) hbody.has⟩

/-- The exit of `b+` can be left again. In `a(b+)*` its repetition is added to the net of `a`, and
gets an entry and an exit of its own. -/
theorem toAutomaton_shape_repeatedPlus :
    ¬ epsilonChar ∈ (Regex.concat [.char 'a', .many (.many1 (.char 'b'))]).literals ∧
    (∀ t ∈ ((Regex.concat [.char 'a', .many (.many1 (.char 'b'))]).toAutomaton "q").transitions,
      t.label.tokens.Nodup) ∧
    Relation.ReflTransGen Adds (.empty, .concat [.char 'a', .many (.many1 (.char 'b'))])
      ((addParts .empty [.char 'a']).2, .many (.many1 (.char 'b'))) ∧
    ∃ m : Net, addTo (addParts .empty [.char 'a']).2 (.many (.many1 (.char 'b'))) =
      m.loopOrSkip ⟨4, 5⟩ ∧ m.Skippable ⟨4, 5⟩ := by
  obtain ⟨-, -, htokens, hskip⟩ :=
    toAutomaton_shape (.concat [.char 'a', .many (.many1 (.char 'b'))]) "q"
  have hε : ¬ epsilonChar ∈ (Regex.concat [.char 'a', .many (.many1 (.char 'b'))]).literals := by
    decide
  have hadds := Relation.ReflTransGen.single
    (Adds.concat .empty [.char 'a'] (.many (.many1 (.char 'b'))) [])
  obtain ⟨-, -, m, f, hapart, hloop, hskippable⟩ := hskip _ _ hadds
  obtain rfl : f = ⟨4, 5⟩ := (congrArg Prod.fst hapart).symm.trans (by decide)
  exact ⟨hε, htokens hε, hadds, m, hloop, hskippable⟩

/-- The literal `ε` and a silent way are two tokens of one label. -/
example : ((Regex.many (.char 'ε')).toAutomaton "q").transitions.map (fun t => t.label.tokens) =
    [["ε", "ε"], ["ε"]] := by
  decide +kernel

end Regex

end FiniteState
