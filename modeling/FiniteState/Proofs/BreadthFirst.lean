import Mathlib.Data.List.Shortlex
import Mathlib.Logic.Relation
import FiniteState.BreadthFirst.Reachability

/-!
# The order of a breadth-first search

A search makes its visits in order: no walk to a node comes before the visit to it, so the first
visit to a node with some property has the first labels of all walks to such nodes. Which order
this is depends on how the edges that leave a node are followed. If nothing is known of that,
visits with fewer labels come first. If the edges are followed in the strict order of their
labels, and the search begins at one node, the visits come in the shortlex order of theirs: those
with equally many labels in lexicographic order.
-/

namespace FiniteState.BreadthFirst

universe u v

variable {α : Type u} {ℓ : Type v} {r : ℓ → ℓ → Prop} {R : List ℓ → List ℓ → Prop}

/-! ## Words in shortlex order -/

/-- The first word is the second or comes before it in shortlex order. -/
abbrev NotAfter (r : ℓ → ℓ → Prop) : List ℓ → List ℓ → Prop :=
  Relation.ReflGen (List.Shortlex r)

instance instIsTransShortlex [IsTrans ℓ r] : IsTrans (List ℓ) (List.Shortlex r) where
  trans x y z hxy hyz := by
    rw [List.shortlex_def] at hxy hyz ⊢
    rcases hxy with hxy | ⟨hxy, hlex⟩
    · exact .inl (by omega)
    · rcases hyz with hyz | ⟨hyz, hlex'⟩
      · exact .inl (by omega)
      · exact .inr ⟨hxy.trans hyz, List.lex_trans (IsTrans.trans _ _ _) hlex hlex'⟩

theorem NotAfter.trans [IsTrans ℓ r] {x y z : List ℓ} (hxy : NotAfter r x y)
    (hyz : NotAfter r y z) : NotAfter r x z :=
  IsTrans.trans x y z hxy hyz

theorem length_le_of_shortlex {x y : List ℓ} (h : List.Shortlex r x y) :
    x.length ≤ y.length := by
  rcases List.shortlex_def.1 h with h | ⟨h, -⟩ <;> omega

/-- Words of one length that differ do so whatever is put after them. -/
theorem lex_append_of_length_eq {x y : List ℓ} (hlen : x.length = y.length)
    (h : List.Lex r x y) (s t : List ℓ) : List.Lex r (x ++ s) (y ++ t) := by
  induction h with
  | nil => cases hlen
  | rel h => exact .rel h
  | cons _ ih => exact .cons (ih (Nat.succ.inj hlen))

theorem shortlex_snoc {x y : List ℓ} (h : List.Shortlex r x y) (k l : ℓ) :
    List.Shortlex r (x ++ [k]) (y ++ [l]) := by
  rw [List.shortlex_def] at h ⊢
  rcases h with h | ⟨hlen, hlex⟩
  · exact .inl (by simpa using h)
  · exact .inr ⟨by simp [hlen], lex_append_of_length_eq hlen hlex [k] [l]⟩

theorem shortlex_append_singleton (x : List ℓ) {k l : ℓ} (h : r k l) :
    List.Shortlex r (x ++ [k]) (x ++ [l]) :=
  List.Shortlex.append_left ((List.shortlex_singleton_iff k l).2 h) x

/-! ## Orders that a search keeps -/

/-- An order of words of labels that a search keeps if the edges that leave a node are followed in
the order `r`: shorter words come first, and words in order stay so whatever label is put at the
end of each. -/
structure Graded (r : ℓ → ℓ → Prop) (R : List ℓ → List ℓ → Prop) : Prop where
  of_length_lt : ∀ {x y : List ℓ}, x.length < y.length → R x y
  length_le : ∀ {x y : List ℓ}, R x y → x.length ≤ y.length
  snoc : ∀ {x y : List ℓ} (k l : ℓ), R x y → R (x ++ [k]) (y ++ [l])
  snoc_self : ∀ (x : List ℓ) {k l : ℓ}, r k l → R (x ++ [k]) (x ++ [l])

theorem graded_shortlex (r : ℓ → ℓ → Prop) : Graded r (List.Shortlex r) where
  of_length_lt := .of_length_lt
  length_le := length_le_of_shortlex
  snoc k l h := shortlex_snoc h k l
  snoc_self := shortlex_append_singleton

/-- Whatever the order of the edges is, a search keeps the order by length. -/
theorem graded_length :
    Graded (fun _ _ : ℓ => True) fun x y => x.length ≤ y.length where
  of_length_lt := Nat.le_of_lt
  length_le := id
  snoc k l h := by simpa using h
  snoc_self x k l _ := by simp

theorem Graded.reflGen_snoc (hR : Graded r R) {x y : List ℓ} (h : Relation.ReflGen R x y)
    (l : ℓ) : Relation.ReflGen R (x ++ [l]) (y ++ [l]) := by
  rcases h with - | h
  · exact .refl
  · exact .single (hR.snoc l l h)

/-! ## The order of the visits -/

/-- The edges that leave a node stand in the strict order of their labels. -/
def Sorted (r : ℓ → ℓ → Prop) (next : α → List (ℓ × α)) : Prop :=
  ∀ a, (next a).Pairwise fun d e => r d.1 e.1

/-- What holds of the order of the visits, whatever has been taken. -/
structure Ordered (R : List ℓ → List ℓ → Prop) (next : α → List (ℓ × α))
    (done queue : List (Visit α ℓ)) : Prop where
  /-- Earlier visits have earlier labels. -/
  increasing : (done.reverse ++ queue).Pairwise fun u v => R u.labels v.labels
  /-- What is in the queue was put there by a visit that is done, or at the start. -/
  parent : ∀ v ∈ queue, v.labels = [] ∨ ∃ u ∈ done, ∃ l, v.labels = u.labels ++ [l]
  /-- No edge from a visit that is done leads to its end before the visit to this end. -/
  first : ∀ v ∈ done, ∀ e ∈ next v.node,
    ∃ u ∈ done ++ queue, u.node = e.2 ∧ Relation.ReflGen R u.labels (v.labels ++ [e.1])

variable {next : α → List (ℓ × α)} {starts : List α}

theorem ordered_start (next : α → List (ℓ × α))
    (hstarts : starts.Pairwise fun _ _ => R [] []) :
    Ordered R next [] (starts.map Visit.start) where
  increasing := by simpa [List.pairwise_map] using hstarts
  parent := by
    intro v hv
    obtain ⟨a, -, rfl⟩ := List.mem_map.1 hv
    exact .inl (Visit.labels_start a)
  first := by simp

/-- A visit that was found already comes before all that the next visit finds. -/
theorem Ordered.rel_snoc (hR : Graded r R) {done queue : List (Visit α ℓ)} {v : Visit α ℓ}
    (h : Ordered R next done (v :: queue)) {u : Visit α ℓ} (hu : u ∈ done ++ v :: queue) (l : ℓ) :
    R u.labels (v.labels ++ [l]) := by
  have hpair := List.pairwise_append.1 h.increasing
  have hdone : ∀ w ∈ done, R w.labels v.labels := fun w hw =>
    hpair.2.2 w (List.mem_reverse.2 hw) v List.mem_cons_self
  rcases List.mem_append.1 hu with hu | hu
  · have hlen := hR.length_le (hdone u hu)
    exact hR.of_length_lt (by simpa using Nat.lt_succ_of_le hlen)
  · rcases List.mem_cons.1 hu with rfl | hu
    · exact hR.of_length_lt (by simp)
    · rcases h.parent u (List.mem_cons_of_mem v hu) with hnil | ⟨w, hw, k, hk⟩
      · exact hR.of_length_lt (by simp [hnil])
      · rw [hk]
        exact hR.snoc k l (hdone w hw)

variable [DecidableEq α]

theorem labels_of_mem_fresh {v w : Visit α ℓ} {seen : List α} {edges : List (ℓ × α)}
    (h : w ∈ fresh v seen edges) :
    ∃ l, (l, w.node) ∈ edges ∧ w.labels = v.labels ++ [l] := by
  obtain ⟨-, l, hl, heq⟩ := mem_fresh v w seen edges h
  exact ⟨l, hl, heq ▸ Visit.labels_step v l w.node⟩

/-- The new visits keep the order of the edges. -/
theorem pairwise_fresh (hR : Graded r R) (v : Visit α ℓ) (seen : List α) {edges : List (ℓ × α)}
    (h : edges.Pairwise fun d e => r d.1 e.1) :
    (fresh v seen edges).Pairwise fun u w => R u.labels w.labels := by
  induction edges generalizing seen with
  | nil => exact .nil
  | cons e edges ih =>
      obtain ⟨k, a⟩ := e
      obtain ⟨hhead, htail⟩ := List.pairwise_cons.1 h
      rw [fresh]
      split
      · exact ih seen htail
      · refine List.pairwise_cons.2 ⟨fun w hw => ?_, ih _ htail⟩
        obtain ⟨l, hl, hlabels⟩ := labels_of_mem_fresh hw
        rw [Visit.labels_step, hlabels]
        exact hR.snoc_self v.labels (hhead _ hl)

/-- The end of an edge was seen before or is newly visited, at the latest over this edge. -/
theorem mem_seen_or_exists_fresh (hR : Graded r R) (v : Visit α ℓ) (seen : List α)
    {edges : List (ℓ × α)} (h : edges.Pairwise fun d e => r d.1 e.1) {e : ℓ × α}
    (he : e ∈ edges) : e.2 ∈ seen ∨ ∃ u ∈ fresh v seen edges, u.node = e.2 ∧
      Relation.ReflGen R u.labels (v.labels ++ [e.1]) := by
  induction edges generalizing seen with
  | nil => cases he
  | cons d edges ih =>
      obtain ⟨k, a⟩ := d
      obtain ⟨hhead, htail⟩ := List.pairwise_cons.1 h
      rw [fresh]
      split
      · next ha =>
          rcases List.mem_cons.1 he with rfl | he
          · exact .inl ha
          · exact ih seen htail he
      · rcases List.mem_cons.1 he with rfl | he
        · refine .inr ⟨v.step k a, List.mem_cons_self, rfl, ?_⟩
          rw [Visit.labels_step]
        · rcases ih (a :: seen) htail he with hmem | ⟨u, hu, hnode, hle⟩
          · rcases List.mem_cons.1 hmem with heq | hmem
            · -- an earlier edge leads to the same node
              refine .inr ⟨v.step k a, List.mem_cons_self, heq.symm, .single ?_⟩
              rw [Visit.labels_step]
              exact hR.snoc_self v.labels (hhead e he)
            · exact .inl hmem
          · exact .inr ⟨u, List.mem_cons_of_mem _ hu, hnode, hle⟩

/-- Taking a visit from the queue keeps the order. -/
theorem Ordered.take (hR : Graded r R) (hsorted : Sorted r next) {done queue : List (Visit α ℓ)}
    {v : Visit α ℓ} (h : Ordered R next done (v :: queue)) :
    Ordered R next (v :: done)
      (queue ++ fresh v ((queue ++ v :: done).map Visit.node) (next v.node)) := by
  constructor
  case increasing =>
    have hlist : (v :: done).reverse ++ (queue ++ fresh v ((queue ++ v :: done).map Visit.node)
        (next v.node)) = (done.reverse ++ v :: queue) ++
          fresh v ((queue ++ v :: done).map Visit.node) (next v.node) := by simp
    rw [hlist]
    refine List.pairwise_append.2 ⟨h.increasing, pairwise_fresh hR v _ (hsorted v.node), ?_⟩
    intro u hu w hw
    obtain ⟨l, -, hlabels⟩ := labels_of_mem_fresh hw
    rw [hlabels]
    exact h.rel_snoc hR (by simpa using hu) l
  case parent =>
    intro u hu
    rcases List.mem_append.1 hu with hu | hu
    · rcases h.parent u (List.mem_cons_of_mem v hu) with hnil | ⟨w, hw, hlabels⟩
      · exact .inl hnil
      · exact .inr ⟨w, List.mem_cons_of_mem v hw, hlabels⟩
    · obtain ⟨l, -, hlabels⟩ := labels_of_mem_fresh hu
      exact .inr ⟨v, List.mem_cons_self, l, hlabels⟩
  case first =>
    intro u hu e he
    rcases List.mem_cons.1 hu with rfl | hu
    · rcases mem_seen_or_exists_fresh hR u ((queue ++ u :: done).map Visit.node)
        (hsorted u.node) he with hseen | ⟨w, hw, hnode, hle⟩
      · obtain ⟨w, hw, hnode⟩ := List.mem_map.1 hseen
        have hperm : (queue ++ u :: done).Perm (done ++ u :: queue) :=
          List.perm_append_comm.trans List.perm_middle.symm
        refine ⟨w, ?_, hnode, .single (h.rel_snoc hR (hperm.mem_iff.1 hw) e.1)⟩
        rw [← List.append_assoc]
        exact List.mem_append_left _ (List.perm_append_comm.mem_iff.1 hw)
      · exact ⟨w, List.mem_append_right _ (List.mem_append_right _ hw), hnode, hle⟩
    · obtain ⟨w, hw, hnode, hle⟩ := h.first u hu e he
      refine ⟨w, ?_, hnode, hle⟩
      rw [← List.append_assoc]
      exact List.mem_append_left _ (List.perm_middle.symm.mem_iff.2 hw)

namespace EndsBy

variable {bound : Nat}

section

variable (hends : EndsBy next bound starts) (hR : Graded r R) (hsorted : Sorted r next)
  (hstarts : starts.Pairwise fun _ _ => R [] [])

include hends hR hsorted hstarts

/-- A search finishes with its visits in order. -/
theorem ordered_search :
    ∃ visits, search next bound starts = visits.reverse ∧ Ordered R next visits [] := by
  obtain ⟨visits, hv, -, hordered⟩ := hends.sound_search_of_invariant
    (ordered_start next hstarts) fun _ _ _ h => h.take hR hsorted
  exact ⟨visits, hv bound (Nat.le_refl _), hordered⟩

theorem pairwise_search :
    (search next bound starts).Pairwise fun u v => R u.labels v.labels := by
  obtain ⟨visits, hv, hordered⟩ := hends.ordered_search hR hsorted hstarts
  rw [hv]
  simpa using hordered.increasing

variable [IsTrans (List ℓ) (Relation.ReflGen R)] {s : α} (hs : s ∈ starts)

include hs

/-- No walk to a node comes before the visit to it. -/
theorem exists_visit_of_walk {labels : List ℓ} {b : α} (h : Walk next s labels b) :
    ∃ u ∈ search next bound starts, u.node = b ∧ Relation.ReflGen R u.labels labels := by
  obtain ⟨visits, hv, hordered⟩ := hends.ordered_search hR hsorted hstarts
  have hmem : ∀ u, u ∈ search next bound starts ↔ u ∈ visits ++ [] := by simp [hv]
  induction h with
  | nil =>
      obtain ⟨more, hmore⟩ := search_eq_append next bound starts
      refine ⟨Visit.start s, ?_, rfl, .refl⟩
      rw [hmore]
      exact List.mem_append_left more (List.mem_map_of_mem hs)
  | snoc hw hb ih =>
      obtain ⟨u, hu, rfl, hle⟩ := ih
      obtain ⟨w, hw, hnode, hle'⟩ := hordered.first u (by simpa using (hmem u).1 hu) _ hb
      exact ⟨w, (hmem w).2 hw, hnode, IsTrans.trans _ _ _ hle' (hR.reflGen_snoc hle _)⟩

/-- The first visit to a node with some property has the first labels of all walks to such
nodes. -/
theorem reflGen_of_find? {p : α → Bool} {v : Visit α ℓ}
    (hfind : (search next bound starts).find? (fun u => p u.node) = some v) {labels : List ℓ}
    {b : α} (h : Walk next s labels b) (hb : p b = true) :
    Relation.ReflGen R v.labels labels := by
  obtain ⟨u, hu, rfl, hle⟩ := hends.exists_visit_of_walk hR hsorted hstarts hs h
  obtain ⟨-, before, after, hsplit, hbefore⟩ := List.find?_eq_some_iff_append.1 hfind
  have hpair := hends.pairwise_search hR hsorted hstarts
  rw [hsplit] at hpair hu
  rcases List.mem_append.1 hu with hu | hu
  · have hnot := hbefore u hu
    rw [hb] at hnot
    cases hnot
  · rcases List.mem_cons.1 hu with rfl | hu
    · exact hle
    · have hlt := (List.pairwise_cons.1 (List.pairwise_append.1 hpair).2.1).1 u hu
      exact IsTrans.trans _ _ _ (.single hlt) hle

end

/-- If the edges stand in the strict order of their labels, and there is one starting node, the
first labels are those that come first in shortlex order. -/
theorem notAfter_of_find? [IsTrans ℓ r] {a : α} (hends : EndsBy next bound [a])
    (hsorted : Sorted r next) {p : α → Bool} {v : Visit α ℓ}
    (hfind : (search next bound [a]).find? (fun u => p u.node) = some v) {labels : List ℓ} {b : α}
    (h : Walk next a labels b) (hb : p b = true) : NotAfter r v.labels labels :=
  hends.reflGen_of_find? (graded_shortlex r) hsorted (List.pairwise_singleton _ _)
    List.mem_cons_self hfind h hb

/-- Wherever the search begins, no walk to a node with the property is shorter. -/
theorem length_le_of_find? (hends : EndsBy next bound starts) {p : α → Bool} {v : Visit α ℓ}
    (hfind : (search next bound starts).find? (fun u => p u.node) = some v) {s : α}
    (hs : s ∈ starts) {labels : List ℓ} {b : α} (h : Walk next s labels b) (hb : p b = true) :
    v.labels.length ≤ labels.length := by
  have hle := hends.reflGen_of_find? graded_length
    (fun a => List.pairwise_of_forall fun _ _ => trivial)
    (List.pairwise_of_forall fun _ _ => Nat.le_refl 0) hs hfind h hb
  rcases hle with - | hle
  · exact Nat.le_refl _
  · exact hle

end EndsBy

end FiniteState.BreadthFirst
