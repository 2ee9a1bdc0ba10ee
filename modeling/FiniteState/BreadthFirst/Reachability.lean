import Mathlib.Data.List.Perm.Subperm
import FiniteState.BreadthFirst

/-!
# What a breadth-first search finds

A search finds the nodes that walks from the starting nodes lead to, each once, provided
that its bound is as large as some finite set of nodes that it cannot leave: `EndsBy`. The
labels of a visit are those of a walk to its node. What else is known of the visits is shown
in the same way, by what one step of the search keeps.
-/

namespace FiniteState

universe u v

variable {α : Type u} {ℓ : Type v}

/-- Walks along the edges of a graph, with the labels on the way. -/
inductive Walk (next : α → List (ℓ × α)) (first : α) : List ℓ → α → Prop
  | nil : Walk next first [] first
  | snoc {labels : List ℓ} {a b : α} {label : ℓ} (h : Walk next first labels a)
      (hb : (label, b) ∈ next a) : Walk next first (labels ++ [label]) b

/-- An edge before a walk makes a walk. -/
theorem Walk.cons {next : α → List (ℓ × α)} {a b c : α} {label : ℓ} {labels : List ℓ}
    (hb : (label, b) ∈ next a) (h : Walk next b labels c) : Walk next a (label :: labels) c := by
  induction h with
  | nil => exact Walk.snoc .nil hb
  | snoc _ hc ih => exact ih.snoc hc

namespace BreadthFirst

/-- Some walk from one of the starting nodes leads to a node. -/
def Reaches (next : α → List (ℓ × α)) (starts : List α) (a : α) : Prop :=
  ∃ s ∈ starts, ∃ labels, Walk next s labels a

theorem reaches_start (next : α → List (ℓ × α)) (starts : List α) (a : α)
    (ha : a ∈ starts) : Reaches next starts a :=
  ⟨a, ha, [], .nil⟩

theorem Reaches.next {next : α → List (ℓ × α)} {starts : List α} {a b : α} {label : ℓ}
    (h : Reaches next starts a) (hb : (label, b) ∈ next a) : Reaches next starts b := by
  obtain ⟨s, hs, labels, hw⟩ := h
  exact ⟨s, hs, labels ++ [label], hw.snoc hb⟩

/-- A set of nodes that is closed under edges holds all that is reached from it. -/
theorem Reaches.of_closed {next : α → List (ℓ × α)} {starts : List α} {p : α → Prop}
    (hs : ∀ a ∈ starts, p a) (hnext : ∀ a, p a → ∀ e ∈ next a, p e.2) {a : α}
    (h : Reaches next starts a) : p a := by
  obtain ⟨s, hstart, labels, hw⟩ := h
  induction hw with
  | nil => exact hs s hstart
  | snoc _ hb ih => exact hnext _ ih _ hb

/-- What holds of the visits done and those in the queue, whatever has been taken. -/
structure Sound (next : α → List (ℓ × α)) (starts : List α)
    (done queue : List (Visit α ℓ)) : Prop where
  nodup : ((done ++ queue).map Visit.node).Nodup
  walk : ∀ v ∈ done ++ queue, ∃ s ∈ starts, Walk next s v.labels v.node
  start : ∀ a ∈ starts, a ∈ (done ++ queue).map Visit.node
  closed : ∀ v ∈ done, ∀ e ∈ next v.node, e.2 ∈ (done ++ queue).map Visit.node

/-- Before the first step nothing is done and the queue holds the starting nodes. -/
theorem sound_start (next : α → List (ℓ × α)) {starts : List α} (hstarts : starts.Nodup) :
    Sound next starts [] (starts.map Visit.start) := by
  constructor
  · simpa [List.map_map, Function.comp_def] using hstarts
  · intro v hv
    rw [List.nil_append] at hv
    obtain ⟨a, ha, rfl⟩ := List.mem_map.1 hv
    exact ⟨a, ha, .nil⟩
  · intro a ha
    simpa [List.map_map, Function.comp_def] using ha
  · intro v hv
    simp at hv

/-- The starting nodes differ, and a search from them cannot leave some finite set of nodes, of
which there are no more than its bound. -/
structure EndsBy (next : α → List (ℓ × α)) (bound : Nat) (starts : List α) : Prop where
  nodup : starts.Nodup
  exists_closed : ∃ univ : List α, (∀ a ∈ starts, a ∈ univ) ∧
    (∀ a ∈ univ, ∀ e ∈ next a, e.2 ∈ univ) ∧ univ.length ≤ bound

/-- No more nodes are met than there are. -/
theorem EndsBy.length_le {next : α → List (ℓ × α)} {bound : Nat} {starts : List α}
    (h : EndsBy next bound starts) {done queue : List (Visit α ℓ)}
    (hsound : Sound next starts done queue) : done.length + queue.length ≤ bound := by
  obtain ⟨univ, hs, hnext, hbound⟩ := h.exists_closed
  have hsub : ∀ a ∈ (done ++ queue).map Visit.node, a ∈ univ := by
    intro a ha
    obtain ⟨v, hv, rfl⟩ := List.mem_map.1 ha
    obtain ⟨s, hstart, hw⟩ := hsound.walk v hv
    exact Reaches.of_closed (p := fun a => a ∈ univ) hs hnext ⟨s, hstart, _, hw⟩
  have hlength := (hsound.nodup.subperm hsub).length_le
  rw [List.length_map, List.length_append] at hlength
  exact Nat.le_trans hlength hbound

variable [DecidableEq α]

/-! ## New nodes -/

theorem mem_fresh (v w : Visit α ℓ) (seen : List α) (edges : List (ℓ × α))
    (h : w ∈ fresh v seen edges) :
    w.node ∉ seen ∧ ∃ label, (label, w.node) ∈ edges ∧ w = v.step label w.node := by
  induction edges generalizing seen with
  | nil => simp at h
  | cons e edges ih =>
      obtain ⟨label, a⟩ := e
      rw [fresh] at h
      split at h
      · obtain ⟨hw, l, hl, heq⟩ := ih seen h
        exact ⟨hw, l, List.mem_cons_of_mem _ hl, heq⟩
      · next ha =>
          rcases List.mem_cons.1 h with rfl | h
          · exact ⟨ha, label, List.mem_cons_self, rfl⟩
          · obtain ⟨hw, l, hl, heq⟩ := ih (a :: seen) h
            exact ⟨fun hm => hw (List.mem_cons_of_mem _ hm), l,
              List.mem_cons_of_mem _ hl, heq⟩

theorem mem_seen_or_fresh (v : Visit α ℓ) (seen : List α) (edges : List (ℓ × α))
    (e : ℓ × α) (he : e ∈ edges) :
    e.2 ∈ seen ∨ e.2 ∈ (fresh v seen edges).map Visit.node := by
  induction edges generalizing seen with
  | nil => simp at he
  | cons d edges ih =>
      obtain ⟨label, a⟩ := d
      rw [fresh]
      split
      · next ha =>
          rcases List.mem_cons.1 he with rfl | he
          · exact .inl ha
          · exact ih seen he
      · rw [List.map_cons, List.mem_cons]
        rcases List.mem_cons.1 he with rfl | he
        · exact .inr (.inl rfl)
        · rcases ih (a :: seen) he with h | h
          · rcases List.mem_cons.1 h with h | h
            · exact .inr (.inl h)
            · exact .inl h
          · exact .inr (.inr h)

theorem nodup_fresh (v : Visit α ℓ) (seen : List α) (edges : List (ℓ × α)) :
    ((fresh v seen edges).map Visit.node).Nodup := by
  induction edges generalizing seen with
  | nil => simp
  | cons e edges ih =>
      obtain ⟨label, a⟩ := e
      rw [fresh]
      split
      · exact ih seen
      · refine List.nodup_cons.2 ⟨fun hm => ?_, ih (a :: seen)⟩
        obtain ⟨w, hw, hwa⟩ := List.mem_map.1 hm
        exact (mem_fresh v w (a :: seen) edges hw).1 (hwa ▸ List.mem_cons_self)

/-! ## The search -/

theorem sound_take {next : α → List (ℓ × α)} {starts : List α}
    {done queue : List (Visit α ℓ)} {v : Visit α ℓ}
    (h : Sound next starts done (v :: queue)) :
    Sound next starts (v :: done)
      (queue ++ fresh v ((queue ++ v :: done).map Visit.node) (next v.node)) := by
  have hperm : (v :: done ++ queue).Perm (done ++ v :: queue) :=
    List.perm_middle.symm
  have hseen : (queue ++ v :: done).Perm (v :: done ++ queue) := List.perm_append_comm
  have hmem : ∀ a, a ∈ (queue ++ v :: done).map Visit.node ↔
      a ∈ (done ++ v :: queue).map Visit.node := fun a =>
    ((hseen.trans hperm).map Visit.node).mem_iff
  have hmem' : ∀ a, a ∈ (v :: done ++ queue).map Visit.node ↔
      a ∈ (done ++ v :: queue).map Visit.node := fun a => (hperm.map Visit.node).mem_iff
  constructor
  · rw [← List.append_assoc, List.map_append]
    refine List.nodup_append.2 ⟨?_, nodup_fresh _ _ _, ?_⟩
    · exact ((hperm.map Visit.node).nodup_iff).2 h.nodup
    · intro a ha b hb hab
      obtain ⟨w, hw, hwb⟩ := List.mem_map.1 hb
      refine (mem_fresh v w _ _ hw).1 ?_
      rw [hwb, ← hab]
      exact (hmem a).2 ((hmem' a).1 ha)
  · intro w hw
    rw [← List.append_assoc, List.mem_append] at hw
    rcases hw with hw | hw
    · exact h.walk w (hperm.mem_iff.1 hw)
    · obtain ⟨_, label, hl, heq⟩ := mem_fresh v w _ _ hw
      obtain ⟨s, hs, hwalk⟩ := h.walk v (by simp)
      refine ⟨s, hs, ?_⟩
      rw [heq, Visit.labels_step, Visit.node_step]
      exact hwalk.snoc hl
  · intro a ha
    rw [← List.append_assoc, List.map_append, List.mem_append]
    exact .inl ((hmem' a).2 (h.start a ha))
  · intro w hw e he
    rw [← List.append_assoc, List.map_append, List.mem_append]
    rcases List.mem_cons.1 hw with rfl | hw
    · rcases mem_seen_or_fresh w _ _ e he with h' | h'
      · exact .inl ((hmem' _).2 ((hmem _).1 h'))
      · exact .inr h'
    · exact .inl ((hmem' _).2 (h.closed w hw e he))

/-- What has been found keeps its place. -/
theorem explore_eq_append (next : α → List (ℓ × α)) (n : Nat) (done queue : List (Visit α ℓ)) :
    ∃ more, explore next n done queue = done.reverse ++ queue ++ more := by
  induction n generalizing done queue with
  | zero => exact ⟨[], by simp [explore]⟩
  | succ n ih =>
      cases queue with
      | nil => exact ⟨[], by simp⟩
      | cons v queue =>
          obtain ⟨more, hmore⟩ := ih (v :: done)
            (queue ++ fresh v ((queue ++ v :: done).map Visit.node) (next v.node))
          refine ⟨fresh v ((queue ++ v :: done).map Visit.node) (next v.node) ++ more, ?_⟩
          rw [explore, hmore]
          simp

/-- A search meets its starting nodes first. -/
theorem search_eq_append (next : α → List (ℓ × α)) (bound : Nat) (starts : List α) :
    ∃ more, search next bound starts = starts.map Visit.start ++ more := by
  obtain ⟨more, hmore⟩ := explore_eq_append next bound [] (starts.map Visit.start)
  exact ⟨more, by rw [search, hmore, List.reverse_nil, List.nil_append]⟩

theorem nodes_eq_append (next : α → List (ℓ × α)) (bound : Nat) (starts : List α) :
    ∃ more, nodes next bound starts = starts ++ more := by
  obtain ⟨more, hmore⟩ := search_eq_append next bound starts
  refine ⟨more.map Visit.node, ?_⟩
  rw [nodes, hmore]
  simp [Function.comp_def]

/-- What one step keeps and what bounds the number of visits holds at the end, when the queue
is empty. A larger bound changes nothing. -/
theorem explore_of_invariant {next : α → List (ℓ × α)}
    {P : List (Visit α ℓ) → List (Visit α ℓ) → Prop} {bound : Nat}
    (htake : ∀ v done queue, P done (v :: queue) →
      P (v :: done) (queue ++ fresh v ((queue ++ v :: done).map Visit.node) (next v.node)))
    (hbound : ∀ done queue, P done queue → done.length + queue.length ≤ bound)
    (n : Nat) (done queue : List (Visit α ℓ)) (h : P done queue)
    (hn : bound ≤ done.length + n) :
    ∃ visits, P visits [] ∧ ∀ k, explore next (n + k) done queue = visits.reverse := by
  induction n generalizing done queue with
  | zero =>
      have hlen := hbound done queue h
      have hq : queue = [] := List.eq_nil_of_length_eq_zero (by omega)
      subst hq
      exact ⟨done, h, fun k => explore_nil next (0 + k) done⟩
  | succ n ih =>
      cases queue with
      | nil => exact ⟨done, h, fun k => explore_nil next (n + 1 + k) done⟩
      | cons v queue =>
          simp only [Nat.add_right_comm n 1, explore]
          exact ih _ _ (htake v done queue h) (by rw [List.length_cons]; omega)

namespace EndsBy

variable {next : α → List (ℓ × α)} {bound : Nat} {starts : List α}

/-- A search finishes by its bound, and what one step keeps holds of its visits. -/
theorem sound_search_of_invariant (h : EndsBy next bound starts)
    {P : List (Visit α ℓ) → List (Visit α ℓ) → Prop} (hstart : P [] (starts.map Visit.start))
    (htake : ∀ v done queue, P done (v :: queue) →
      P (v :: done) (queue ++ fresh v ((queue ++ v :: done).map Visit.node) (next v.node))) :
    ∃ visits, (∀ more, bound ≤ more → search next more starts = visits.reverse) ∧
      Sound next starts visits [] ∧ P visits [] := by
  obtain ⟨visits, ⟨hsound, hp⟩, hv⟩ := explore_of_invariant
    (P := fun done queue => Sound next starts done queue ∧ P done queue)
    (fun v done queue hp => ⟨sound_take hp.1, htake v done queue hp.2⟩)
    (fun _ _ hp => h.length_le hp.1) bound _ _ ⟨sound_start next h.nodup, hstart⟩ (by simp)
  refine ⟨visits, fun more hmore => ?_, hsound, hp⟩
  obtain ⟨k, rfl⟩ := Nat.exists_eq_add_of_le hmore
  exact hv k

theorem sound_search (h : EndsBy next bound starts) :
    ∃ visits, (∀ more, bound ≤ more → search next more starts = visits.reverse) ∧
      Sound next starts visits [] := by
  obtain ⟨visits, hv, hsound, -⟩ := h.sound_search_of_invariant
    (P := fun _ _ => True) trivial fun _ _ _ _ => trivial
  exact ⟨visits, hv, hsound⟩

/-- No node is met twice. -/
theorem nodup_nodes (h : EndsBy next bound starts) : (nodes next bound starts).Nodup := by
  obtain ⟨visits, hv, h⟩ := h.sound_search
  rw [nodes, hv bound (Nat.le_refl _), List.map_reverse]
  exact (List.reverse_perm _).nodup_iff.2 (by simpa using h.nodup)

/-- The nodes met are those that walks lead to. -/
theorem mem_nodes_iff (h : EndsBy next bound starts) (a : α) :
    a ∈ nodes next bound starts ↔ Reaches next starts a := by
  obtain ⟨visits, hv, h⟩ := h.sound_search
  have hmem : ∀ b, b ∈ nodes next bound starts ↔ b ∈ visits.map Visit.node := fun b => by
    rw [nodes, hv bound (Nat.le_refl _), List.map_reverse, List.mem_reverse]
  rw [hmem]
  constructor
  · intro ha
    obtain ⟨v, hvm, rfl⟩ := List.mem_map.1 ha
    obtain ⟨s, hstart, hw⟩ := h.walk v (by simpa using hvm)
    exact ⟨s, hstart, _, hw⟩
  · refine Reaches.of_closed (p := fun b => b ∈ visits.map Visit.node)
      (fun b hb => by simpa using h.start b hb) fun b hb e he => ?_
    obtain ⟨v, hvm, rfl⟩ := List.mem_map.1 hb
    simpa using h.closed v hvm e he

/-- The search ends before it meets its bound. -/
theorem search_eq_of_le (h : EndsBy next bound starts) {more : Nat} (hmore : bound ≤ more) :
    search next more starts = search next bound starts := by
  obtain ⟨visits, hv, -⟩ := h.sound_search
  rw [hv more hmore, hv bound (Nat.le_refl _)]

/-- The labels of a visit lead to its node. -/
theorem walk_of_mem_search (h : EndsBy next bound starts) {v : Visit α ℓ}
    (hv : v ∈ search next bound starts) : ∃ s ∈ starts, Walk next s v.labels v.node := by
  obtain ⟨visits, hvisits, hsound⟩ := h.sound_search
  rw [hvisits bound (Nat.le_refl _), List.mem_reverse] at hv
  exact hsound.walk v (by simpa using hv)

end EndsBy

end BreadthFirst

end FiniteState
