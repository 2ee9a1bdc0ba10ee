import Mathlib.Data.List.Nodup
import FiniteState.BreadthFirst.Reachability

/-!
# The way back

A visit holds all steps that led to it, but what it adds to the visit before it is one step. So
the visits together are a map from each node to its parent, and the steps that led to a node can
be met again, the last one first, by going from parent to parent. This ends at a starting node:
every visit is one step longer than the visit to the parent.
-/

namespace FiniteState.BreadthFirst

universe u v

variable {α : Type u} {ℓ : Type v}

/-- Every visit is to a starting node or goes one step on from a visit that is done. -/
def Linked (starts : List α) (done queue : List (Visit α ℓ)) : Prop :=
  ∀ v ∈ done ++ queue, (∃ s ∈ starts, v = Visit.start s) ∨
    ∃ u ∈ done, ∃ label, v = u.step label v.node

theorem linked_start (starts : List α) :
    Linked starts [] (starts.map (Visit.start : α → Visit α ℓ)) := by
  intro v hv
  obtain ⟨s, hs, rfl⟩ := List.mem_map.1 hv
  exact .inl ⟨s, hs, rfl⟩

variable [DecidableEq α]

theorem linked_take {next : α → List (ℓ × α)} {starts : List α} {done queue : List (Visit α ℓ)}
    {v : Visit α ℓ} (h : Linked starts done (v :: queue)) :
    Linked starts (v :: done)
      (queue ++ fresh v ((queue ++ v :: done).map Visit.node) (next v.node)) := by
  intro w hw
  rw [← List.append_assoc, List.mem_append] at hw
  rcases hw with hw | hw
  · have hmem : w ∈ done ++ v :: queue := List.perm_middle.symm.mem_iff.1 hw
    rcases h w hmem with hstart | ⟨u, hu, hstep⟩
    · exact .inl hstart
    · exact .inr ⟨u, List.mem_cons_of_mem v hu, hstep⟩
  · obtain ⟨-, label, -, hstep⟩ := mem_fresh v w _ _ hw
    exact .inr ⟨v, List.mem_cons_self, label, hstep⟩

/-- The parent of a node and the label on the step from there. Starting nodes have none. -/
def parent? (visits : List (Visit α ℓ)) (a : α) : Option (α × ℓ) :=
  (visits.find? fun v => decide (v.node = a)).bind fun v => v.trail.head?

/-- Going from parent to parent leads from a node to one without a parent. The labels are those
on the way, the label of the first step back at the end. -/
inductive TracesBack (visits : List (Visit α ℓ)) : α → List ℓ → α → Prop
  | stop {a : α} (h : parent? visits a = none) : TracesBack visits a [] a
  | step {a b s : α} {label : ℓ} {labels : List ℓ} (h : parent? visits b = some (a, label))
      (ht : TracesBack visits a labels s) : TracesBack visits b (labels ++ [label]) s

/-- There is one way back. -/
theorem TracesBack.unique {visits : List (Visit α ℓ)} {a s s' : α} {labels labels' : List ℓ}
    (h : TracesBack visits a labels s) (h' : TracesBack visits a labels' s') :
    labels = labels' ∧ s = s' := by
  induction h generalizing labels' with
  | stop hnone =>
      cases h' with
      | stop => exact ⟨rfl, rfl⟩
      | step hsome => rw [hnone] at hsome; cases hsome
  | step hsome _ ih =>
      cases h' with
      | stop hnone => rw [hnone] at hsome; cases hsome
      | step hsome' ht' =>
          rw [hsome, Option.some.injEq, Prod.mk.injEq] at hsome'
          obtain ⟨rfl, rfl⟩ := hsome'
          obtain ⟨rfl, rfl⟩ := ih ht'
          exact ⟨rfl, rfl⟩

theorem parent?_eq {visits : List (Visit α ℓ)} (hnodup : (visits.map Visit.node).Nodup)
    {v : Visit α ℓ} (hv : v ∈ visits) : parent? visits v.node = v.trail.head? := by
  rw [parent?]
  cases hfind : visits.find? fun w => decide (w.node = v.node) with
  | none => exact absurd (decide_eq_true rfl) (List.find?_eq_none.1 hfind v hv)
  | some w =>
      have hw := List.mem_of_find?_eq_some hfind
      have hfound := List.find?_some hfind
      have hnode := of_decide_eq_true hfound
      rw [List.inj_on_of_nodup_map hnodup hw hv hnode, Option.bind_some]

/-- The way back from a visit meets the labels that led to it. -/
theorem tracesBack_of_linked {starts : List α} {visits : List (Visit α ℓ)}
    (hnodup : (visits.map Visit.node).Nodup) (h : Linked starts visits []) {v : Visit α ℓ}
    (hv : v ∈ visits) : ∃ s ∈ starts, TracesBack visits v.node v.labels s := by
  -- by the steps that led to the visit, of which the visit to the parent lacks the last one
  generalize htrail : v.trail = trail
  induction trail generalizing v with
  | nil =>
      have hstop := parent?_eq hnodup hv
      rw [htrail] at hstop
      rcases h v (List.mem_append_left _ hv) with ⟨s, hs, rfl⟩ | ⟨u, -, label, hstep⟩
      · exact ⟨s, hs, .stop hstop⟩
      · rw [hstep] at htrail
        cases htrail
  | cons e trail ih =>
      have hparent := parent?_eq hnodup hv
      rcases h v (List.mem_append_left _ hv) with ⟨s, -, rfl⟩ | ⟨u, hu, label, hstep⟩
      · cases htrail
      · rw [hstep] at htrail hparent ⊢
        obtain ⟨s, hs, hback⟩ := ih hu (List.cons.inj htrail).2
        rw [Visit.labels_step]
        exact ⟨s, hs, .step hparent hback⟩

/-- From every node that is found the way back ends at a starting node. -/
theorem EndsBy.tracesBack_of_mem_search {next : α → List (ℓ × α)} {bound : Nat}
    {starts : List α} (h : EndsBy next bound starts) {v : Visit α ℓ}
    (hv : v ∈ search next bound starts) :
    ∃ s ∈ starts, TracesBack (search next bound starts) v.node v.labels s := by
  obtain ⟨visits, hvisits, -, hlinked⟩ := h.sound_search_of_invariant (linked_start starts)
    fun _ _ _ => linked_take
  have hsearch := hvisits bound (Nat.le_refl _)
  refine tracesBack_of_linked h.nodup_nodes (fun w hw => ?_) hv
  rw [List.append_nil, hsearch, List.mem_reverse] at hw
  simpa [hsearch] using hlinked w (List.mem_append_left _ hw)

end FiniteState.BreadthFirst
