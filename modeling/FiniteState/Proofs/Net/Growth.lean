import Mathlib.Logic.Relation
import FiniteState.Proofs.Net.Language

/-!
# How a net grows

Two states are joined by one arc at most: what is added between them goes into the arc that is
there. So a net grows in two ways only, by states that nothing joins yet and by an arc that becomes
wider, and `Step` is one such change. `Tidy` says what every step keeps, and `steps_addTo` that an
expression is added by steps. Whatever fragments are built inside of others, no proof about the
arcs follows the tree again.
-/

namespace FiniteState

/-- The two states that an arc joins. -/
def Arc.ends (arc : Arc) : Nat × Nat := (arc.source, arc.target)

namespace Net

/-- The pairs of states that are joined, in the order in which they have been. -/
def ends (n : Net) : List (Nat × Nat) := n.arcs.map Arc.ends

/-- Both ends of a fragment are states of the net. -/
def Has (n : Net) (f : Fragment) : Prop := f.start < n.size ∧ f.accept < n.size

theorem Realises.has {n m : Net} {f : Fragment} {L : Language Char} (h : Realises n m f L) :
    m.Has f :=
  ⟨h.start_lt, h.accept_lt⟩

theorem Laid.has {m : Net} {lo : Nat} {fs : List Fragment} {rs : List Regex}
    (h : Laid m lo fs rs) : ∀ f ∈ fs, m.Has f := by
  induction h with
  | nil lo => exact fun f hf => absurd hf List.not_mem_nil
  | cons hstart haccept _ hhi _ _ _ ih =>
      exact List.forall_mem_cons.2 ⟨⟨by omega, by omega⟩, ih⟩

/-! ## One arc for two states -/

section

variable {s t : Nat} {f : Arc → Arc}

/-- A pair of states that is joined already is not joined once more. -/
theorem ends_updateArc (hf : ∀ arc, (f arc).ends = arc.ends) (arcs : List Arc) :
    (updateArc s t f arcs).map Arc.ends =
      if (s, t) ∈ arcs.map Arc.ends then arcs.map Arc.ends
      else arcs.map Arc.ends ++ [(s, t)] := by
  induction arcs with
  | nil =>
      rw [updateArc, List.map_singleton, hf]
      rfl
  | cons arc arcs ih =>
      rw [updateArc]
      split
      · next h =>
          have hends : arc.ends = (s, t) := Prod.ext h.1 h.2
          simp [hf, hends]
      · next h =>
          have hne : ¬ (s, t) = arc.ends := fun he =>
            h ⟨(congrArg Prod.fst he).symm, (congrArg Prod.snd he).symm⟩
          simp only [List.map_cons, List.mem_cons, hne, false_or, ih]
          split <;> rfl

/-- What all arcs have in common is kept, if a wider arc and a new one have it too. -/
theorem forall_mem_updateArc {P : Arc → Prop} (hf : ∀ arc, P arc → P (f arc))
    (hnew : P ⟨s, t, .empty, false⟩) {arcs : List Arc} (h : ∀ arc ∈ arcs, P arc) :
    ∀ arc ∈ updateArc s t f arcs, P arc := by
  induction arcs with
  | nil => exact List.forall_mem_singleton.2 (hf _ hnew)
  | cons arc arcs ih =>
      obtain ⟨harc, harcs⟩ := List.forall_mem_cons.1 h
      rw [updateArc]
      split
      · exact List.forall_mem_cons.2 ⟨hf arc harc, harcs⟩
      · exact List.forall_mem_cons.2 ⟨harc, ih harcs⟩

end

theorem mem_ends_addSilent (n : Net) (s t : Nat) (p : Nat × Nat) :
    p ∈ (n.addSilent s t).ends ↔ p ∈ n.ends ∨ p = (s, t) := by
  have hends := ends_updateArc (s := s) (t := t)
    (f := fun arc => { arc with silent := true }) (fun _ => rfl) n.arcs
  rw [ends, addSilent, hends]
  split
  · next hmem => exact ⟨.inl, fun hp => hp.elim id fun heq => heq ▸ hmem⟩
  · rw [List.mem_append, List.mem_singleton]
    exact Iff.rfl

theorem mem_ends_enclose (n : Net) (o f : Fragment) (p : Nat × Nat) :
    p ∈ (n.enclose o f).ends ↔
      p ∈ n.ends ∨ p = (o.start, f.start) ∨ p = (f.accept, o.accept) := by
  rw [enclose, mem_ends_addSilent, mem_ends_addSilent, or_assoc]

theorem hasIncoming_eq_false_iff (n : Net) (j : Nat) :
    n.hasIncoming j = false ↔ ∀ p ∈ n.ends, p.2 ≠ j := by
  simp [hasIncoming, ends, Arc.ends]

theorem hasOutgoing_eq_false_iff (n : Net) (i : Nat) :
    n.hasOutgoing i = false ↔ ∀ p ∈ n.ends, p.1 ≠ i := by
  simp [hasOutgoing, ends, Arc.ends]

/-! ## Steps -/

/-- Widening an arc lets it join the same states, and adds literals of `S` at most. -/
structure Widens (S : List Char) (f : Arc → Arc) : Prop where
  ends_eq : ∀ arc, (f arc).ends = arc.ends
  symbols : ∀ arc, ∀ c ∈ (f arc).symbols, c ∈ arc.symbols ∨ c ∈ S

/-- One change of a net that is being made, with literals of `S`. -/
inductive Step (S : List Char) : Net → Net → Prop
  | addFragment (n : Net) : Step S n n.addFragment.2
  | updateArc {n : Net} {s t : Nat} {f : Arc → Arc} (hs : s < n.size) (ht : t < n.size)
      (hf : Widens S f) : Step S n { n with arcs := updateArc s t f n.arcs }

/-- Any number of changes. -/
abbrev Steps (S : List Char) : Net → Net → Prop := Relation.ReflTransGen (Step S)

/-- What is true of every net in the making: arcs join its states, no two arcs join the same two,
and the literals on them are those of `S`. -/
structure Tidy (S : List Char) (n : Net) : Prop where
  ends_lt : ∀ p ∈ n.ends, p.1 < n.size ∧ p.2 < n.size
  nodup_ends : n.ends.Nodup
  symbols : ∀ arc ∈ n.arcs, ∀ c ∈ arc.symbols, c ∈ S

theorem tidy_empty (S : List Char) : Net.empty.Tidy S where
  ends_lt _ hp := absurd hp List.not_mem_nil
  nodup_ends := List.nodup_nil
  symbols _ harc := absurd harc List.not_mem_nil

variable {S : List Char} {n m : Net} {f o : Fragment}

theorem Tidy.bounded (h : n.Tidy S) : n.Bounded := by
  rintro i v j ⟨arc, harc, rfl, rfl, -⟩
  exact h.ends_lt arc.ends (List.mem_map_of_mem harc)

theorem Step.tidy (h : Step S n m) (hn : n.Tidy S) : m.Tidy S := by
  cases h with
  | addFragment =>
      refine ⟨fun p hp => ?_, hn.nodup_ends, hn.symbols⟩
      have hlt := hn.ends_lt p hp
      exact ⟨Nat.lt_add_right 2 hlt.1, Nat.lt_add_right 2 hlt.2⟩
  | @updateArc s t f hs ht hf =>
      have hends := ends_updateArc (s := s) (t := t) hf.ends_eq n.arcs
      refine ⟨?_, ?_, ?_⟩
      · change ∀ p ∈ (Net.updateArc s t f n.arcs).map Arc.ends, _
        rw [hends]
        split
        · exact hn.ends_lt
        · exact List.forall_mem_append.2 ⟨hn.ends_lt, List.forall_mem_singleton.2 ⟨hs, ht⟩⟩
      · change ((Net.updateArc s t f n.arcs).map Arc.ends).Nodup
        rw [hends]
        split
        · exact hn.nodup_ends
        · next hnot =>
            rw [← List.concat_eq_append]
            exact hn.nodup_ends.concat hnot
      · refine forall_mem_updateArc (fun arc harc c hc => ?_) ?_ hn.symbols
        · exact (hf.symbols arc c hc).elim (harc c) id
        · exact fun c hc => absurd hc (Alphabet.not_mem_empty c)

theorem Step.has (h : Step S n m) (hf : n.Has f) : m.Has f := by
  cases h with
  | addFragment => exact ⟨Nat.lt_add_right 2 hf.1, Nat.lt_add_right 2 hf.2⟩
  | updateArc => exact hf

theorem Steps.tidy (h : Steps S n m) (hn : n.Tidy S) : m.Tidy S := by
  induction h with
  | refl => exact hn
  | tail _ hstep ih => exact hstep.tidy ih

theorem Steps.has (h : Steps S n m) (hf : n.Has f) : m.Has f := by
  induction h with
  | refl => exact hf
  | tail _ hstep ih => exact hstep.has ih

theorem steps_addBlank {s t : Nat} (hs : s < n.size) (ht : t < n.size) :
    Steps S n (n.addBlank s t) :=
  .single (.updateArc hs ht ⟨fun _ => rfl, fun _ _ => .inl⟩)

theorem steps_addSymbol {s t : Nat} {c : Char} (hs : s < n.size) (hc : c ∈ S)
    (ht : t < n.size) : Steps S n (n.addSymbol s c t) := by
  refine .single (.updateArc hs ht ⟨fun _ => rfl, fun arc d hd => ?_⟩)
  rcases (Alphabet.mem_insert arc.symbols c d).1 hd with rfl | hd
  · exact .inr hc
  · exact .inl hd

theorem steps_addSilent {s t : Nat} (hs : s < n.size) (ht : t < n.size) :
    Steps S n (n.addSilent s t) :=
  .single (.updateArc hs ht ⟨fun _ => rfl, fun _ _ => .inl⟩)

/-! ## Fragments -/

theorem has_addFragment (n : Net) : n.addFragment.2.Has n.addFragment.1 :=
  ⟨Nat.lt_add_of_pos_right (by decide), Nat.lt_succ_self _⟩

theorem steps_addEmpty (n : Net) : Steps S n n.addEmpty.2 :=
  .head (.addFragment n) (steps_addBlank n.has_addFragment.1 n.has_addFragment.2)

theorem steps_addChar {c : Char} (hc : c ∈ S) (n : Net) : Steps S n (n.addChar c).2 :=
  .head (.addFragment n) (steps_addSymbol n.has_addFragment.1 hc n.has_addFragment.2)

theorem steps_enclose (ho : n.Has o) (hf : n.Has f) : Steps S n (n.enclose o f) :=
  (steps_addSilent ho.1 hf.1).trans (steps_addSilent hf.2 ho.2)

theorem steps_loopOrSkip (hf : n.Has f) : Steps S n (n.loopOrSkip f).2 :=
  (steps_addSilent hf.2 hf.1).trans (steps_addSilent hf.1 hf.2)

/-- The fragment that a repetition goes round: the one it is given, or that one with an entry and
an exit of its own around it. -/
def setApart (n : Net) (f : Fragment) : Fragment × Net :=
  if n.mustIsolate f then n.isolate f else (f, n)

theorem star_eq (n : Net) (f : Fragment) :
    n.star f = (n.setApart f).2.loopOrSkip (n.setApart f).1 := by
  rw [star, setApart]
  split <;> rfl

theorem has_setApart (hf : n.Has f) : (n.setApart f).2.Has (n.setApart f).1 := by
  rw [setApart]
  split
  · exact n.has_addFragment
  · exact hf

theorem steps_setApart (hf : n.Has f) : Steps S n (n.setApart f).2 := by
  have hfresh : Step S n n.addFragment.2 := .addFragment n
  rw [setApart]
  split
  · exact .head hfresh (steps_enclose n.has_addFragment (hfresh.has hf))
  · exact .refl

theorem steps_star (hf : n.Has f) : Steps S n (n.star f).2 := by
  rw [star_eq]
  exact (steps_setApart hf).trans (steps_loopOrSkip (has_setApart hf))

theorem steps_chain {fs : List Fragment} (hfs : ∀ f ∈ fs, n.Has f) :
    Steps S n (n.chain fs) := by
  induction fs generalizing n with
  | nil => exact .refl
  | cons f fs ih =>
      cases fs with
      | nil => exact .refl
      | cons g rest =>
          obtain ⟨hf, hrest⟩ := List.forall_mem_cons.1 hfs
          rw [chain]
          exact (steps_addSilent hf.2 (hrest g List.mem_cons_self).1).trans (ih hrest)

theorem steps_sequence {fs : List Fragment} (hfs : ∀ f ∈ fs, n.Has f) :
    Steps S n (n.sequence fs).2 := by
  cases fs with
  | nil => exact steps_addEmpty n
  | cons f fs => exact steps_chain hfs

end Net

/-! ## Expressions -/

namespace Regex

open Net

variable {S : List Char}

mutual

/-- An expression is added by steps with its literals. -/
theorem steps_addTo : ∀ (r : Regex) {n : Net}, n.Tidy S → r.literals ⊆ S →
    Steps S n (addTo n r).2
  | .empty, n, hn, hS => by
      rw [addTo]
      exact steps_addEmpty n
  | .char c, n, hn, hS => by
      rw [addTo]
      exact steps_addChar (hS (List.mem_singleton_self c)) n
  | .concat parts, n, hn, hS => by
      obtain ⟨-, -, hlaid⟩ := laid_addParts parts hn.bounded
      rw [addTo]
      exact (steps_addParts parts hn hS).trans (steps_sequence hlaid.has)
  | .alt parts, n, hn, hS => by
      have hfresh : Step S n n.addFragment.2 := .addFragment n
      have hhas := (realises_addFragment hn.bounded).1.has
      rw [addTo]
      exact .head hfresh (steps_addChoices parts (hfresh.tidy hn) hhas hS)
  | .many body, n, hn, hS => by
      rw [addTo]
      exact (steps_addTo body hn hS).trans (steps_star (realises_addTo body hn.bounded).has)
  | .many1 body, n, hn, hS => by
      have hhas := (realises_addTo body hn.bounded).has
      rw [addTo]
      exact (steps_addTo body hn hS).trans (steps_addSilent hhas.2 hhas.1)

theorem steps_addParts : ∀ (rs : List Regex) {n : Net}, n.Tidy S → literalsAll rs ⊆ S →
    Steps S n (addParts n rs).2
  | [], n, hn, hS => by
      rw [addParts]
  | r :: rs, n, hn, hS => by
      obtain ⟨hr, hrs⟩ := List.append_subset.1 hS
      have hfirst := steps_addTo r hn hr
      rw [addParts]
      exact hfirst.trans (steps_addParts rs (hfirst.tidy hn) hrs)

theorem steps_addChoices : ∀ (rs : List Regex) {n : Net} {o : Fragment}, n.Tidy S → n.Has o →
    literalsAll rs ⊆ S → Steps S n (addChoices n o rs)
  | [], n, o, hn, ho, hS => by
      rw [addChoices]
  | r :: rs, n, o, hn, ho, hS => by
      obtain ⟨hr, hrs⟩ := List.append_subset.1 hS
      have hadd := steps_addTo r hn hr
      have hhas := (realises_addTo r hn.bounded).has
      have hfirst : Steps S n ((addTo n r).2.enclose o (addTo n r).1) :=
        hadd.trans (steps_enclose (hadd.has ho) hhas)
      rw [addChoices]
      exact hfirst.trans (steps_addChoices rs (hfirst.tidy hn) (hfirst.has ho) hrs)

end

theorem tidy_addTo {r : Regex} {n : Net} (hn : n.Tidy S) (hr : r.literals ⊆ S) :
    (addTo n r).2.Tidy S :=
  (steps_addTo r hn hr).tidy hn

end Regex

end FiniteState
