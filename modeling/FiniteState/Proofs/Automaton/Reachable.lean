import FiniteState.Automaton.Reachable
import FiniteState.Proofs.Automaton.Swap

/-!
# Reachable states

The search for reachable states follows every transition between existing states, whatever its
label lets through. So its states are the ends of the paths on which nothing is asked of the
labels. Every label of a complete deterministic automaton lets some symbol through, and there the
search finds the states that words lead to. The start state is one of them and is left on every
symbol, so the symbols that leave reachable states are the alphabet, however many other states
there are.
-/

namespace FiniteState.Automaton

variable {a : Automaton} {S : Alphabet}

/-! ## The search -/

theorem mem_successors (a : Automaton) (p : String) (e : Unit × String) : e ∈ a.successors p ↔
    ∃ t ∈ a.transitions, t.source = p ∧ t.target = e.2 ∧ e.2 ∈ a.names := by
  obtain ⟨⟨⟩, q⟩ := e
  rw [successors, List.mem_filterMap]
  constructor
  · rintro ⟨t, ht, he⟩
    obtain ⟨ht, hsource⟩ := (mem_outgoing a p t).1 ht
    simp only [Option.ite_none_right_eq_some, Option.some.injEq, Prod.mk.injEq, true_and] at he
    obtain ⟨htarget, rfl⟩ := he
    exact ⟨t, ht, hsource, rfl, (hasState_iff a _).1 htarget⟩
  · rintro ⟨t, ht, hsource, rfl, htarget⟩
    exact ⟨t, (mem_outgoing a p t).2 ⟨ht, hsource⟩, if_pos ((hasState_iff a _).2 htarget)⟩

/-- The search cannot leave the states of the automaton. -/
theorem endsBy_successors (a : Automaton) :
    BreadthFirst.EndsBy a.successors a.states.length (stateNames a.starts) := by
  refine ⟨nodup_stateNames_starts a, a.names, fun _ => mem_names_of_mem_starts, ?_,
    (length_names a).le⟩
  intro p _ e he
  obtain ⟨t, -, -, -, htarget⟩ := (mem_successors a p e).1 he
  exact htarget

/-- No state is met twice. -/
theorem nodup_reachable (a : Automaton) : a.reachable.Nodup :=
  a.endsBy_successors.nodup_nodes

/-- Labels that let everything through. -/
def anyPiece : Label → Language Char := fun _ => ⊤

theorem Path.any {pieces : Label → Language Char} {p q : String} {w : List Char}
    (h : Path a pieces p w q) : Path a anyPiece p w q := by
  refine h.mono ?_
  exact fun _ _ _ _ => trivial

/-- The states that are met are those to which paths lead, if all labels let everything through. -/
theorem mem_reachable_iff (a : Automaton) (q : String) :
    q ∈ a.reachable ↔ ∃ p ∈ stateNames a.starts, ∃ w, Path a anyPiece p w q := by
  refine (a.endsBy_successors.mem_nodes_iff q).trans ?_
  constructor
  · intro h
    refine (BreadthFirst.Reaches.of_closed (p := fun q => q ∈ a.names ∧
      ∃ p ∈ stateNames a.starts, ∃ w, Path a anyPiece p w q) ?_ ?_ h).2
    · exact fun p hp => ⟨mem_names_of_mem_starts hp, p, hp, [], .nil p⟩
    · rintro q ⟨hq, p, hp, w, hw⟩ e he
      obtain ⟨t, ht, rfl, htarget, hmem⟩ := (mem_successors a q e).1 he
      have hstep : Path a anyPiece t.source ([] ++ []) t.target :=
        .cons ht hq (htarget ▸ hmem) trivial (.nil _)
      exact ⟨hmem, p, hp, _, hw.append (htarget ▸ hstep)⟩
  · rintro ⟨p, hp, w, hw⟩
    suffices hfrom : ∀ r w, Path a anyPiece r w q →
        BreadthFirst.Reaches a.successors (stateNames a.starts) r →
        BreadthFirst.Reaches a.successors (stateNames a.starts) q from
      hfrom p w hw (BreadthFirst.reaches_start _ _ p hp)
    clear hw
    intro r w hw
    induction hw with
    | nil r => exact fun hr => hr
    | @cons t v w _ ht _ htarget _ _ ih =>
        intro hr
        exact ih (hr.next ((mem_successors a t.source ((), t.target)).2 ⟨t, ht, rfl, rfl, htarget⟩))

theorem mem_names_of_mem_reachable {q : String} (h : q ∈ a.reachable) : q ∈ a.names := by
  obtain ⟨p, hp, w, hw⟩ := (mem_reachable_iff a q).1 h
  exact hw.mem_names (mem_names_of_mem_starts hp)

theorem mem_alphabet_iff (a : Automaton) (c : Char) : c ∈ a.alphabet ↔
    ∃ t ∈ a.transitions, t.source ∈ a.reachable ∧ c ∈ t.label.symbols := by
  simp only [alphabet, Alphabet.mem_ofList, List.mem_flatMap, List.mem_filter,
    List.contains_iff_mem, and_assoc]

/-! ## Complete deterministic automata -/

namespace IsComplete

variable (h : a.IsComplete S)

include h

/-- Some symbol is read on every transition. -/
theorem exists_mem_pieces {t : Transition} (ht : t ∈ a.transitions) :
    ∃ v, v ∈ t.label.pieces := by
  obtain ⟨token, htoken⟩ := List.exists_mem_of_ne_nil _ (h.tokens_ne_nil t ht)
  obtain ⟨c, hc, rfl⟩ := h.isSymbolToken t ht token htoken
  exact ⟨[c], .inr ⟨c, rfl, hc, htoken⟩⟩

/-- The reachable states are those that words lead to. -/
theorem mem_reachable_iff (q : String) : q ∈ a.reachable ↔ a.LeadsTo q := by
  rw [Automaton.mem_reachable_iff, LeadsTo]
  refine exists_congr fun p => and_congr_right fun hp => ?_
  clear hp
  constructor
  · rintro ⟨w, hw⟩
    induction hw with
    | nil p => exact ⟨[], .nil p⟩
    | cons ht hsource htarget _ _ ih =>
        obtain ⟨v, hv⟩ := h.exists_mem_pieces ht
        obtain ⟨w, hw⟩ := ih
        exact ⟨v ++ w, .cons ht hsource htarget hv hw⟩
  · rintro ⟨w, hw⟩
    exact ⟨w, hw.any⟩

/-- The symbols that leave reachable states are the alphabet. -/
theorem alphabet_eq : a.alphabet = S := by
  refine Alphabet.ext_mem fun c => ?_
  rw [mem_alphabet_iff]
  constructor
  · rintro ⟨t, ht, -, hc⟩
    have htoken := ((Label.mem_symbols_iff _ c).1 hc).2
    exact (h.mem_leavingTokens_iff (h.ends t ht).1 c).1 (mem_leavingTokens ht htoken)
  · intro hc
    obtain ⟨p, hp, -⟩ := h.exists_start
    have hstart : p.name ∈ stateNames a.starts := by
      rw [hp]
      exact List.mem_singleton_self _
    obtain ⟨t, ht, hsource, htoken, -⟩ :=
      h.exists_transition (mem_names_of_mem_starts hstart) hc
    refine ⟨t, ht, ?_, (Label.mem_symbols_iff _ c).2
      ⟨fun heq => h.epsilon_not_mem (heq ▸ hc), htoken⟩⟩
    rw [hsource, h.mem_reachable_iff]
    exact leadsTo_of_mem_starts hstart

end IsComplete

end FiniteState.Automaton
