import Mathlib.Data.List.Induction
import FiniteState.Grouping

/-!
# Groups of a list

The groups of a list by a key are the filters of the list by the values of the key, and
together they hold the list once. What the keys are called does not matter for the groups.
-/

namespace FiniteState

universe u v w

variable {κ : Type u} {α : Type v} [DecidableEq κ]

theorem valuesOf_map (key : α → κ) (k : κ) (values : List α) :
    valuesOf k (values.map fun x => (key x, x)) = values.filter fun x => key x = k := by
  induction values with
  | nil => rfl
  | cons x values ih =>
      have hcons : (key x, x) :: values.map (fun x => (key x, x)) =
          [(key x, x)] ++ values.map fun x => (key x, x) := rfl
      rw [List.map_cons, hcons, valuesOf_append, ih]
      by_cases h : key x = k
      · subst h
        simp [valuesOf_singleton_self]
      · simp [valuesOf_singleton_of_ne k (key x) x h, h]

/-- There is a group for each value of the key, and it is a filter of the list. -/
theorem mem_groupOn_iff (key : α → κ) (values : List α) (k : κ) (vs : List α) :
    (k, vs) ∈ groupOn key values ↔
      (∃ x ∈ values, key x = k) ∧ vs = values.filter fun x => key x = k := by
  rw [groupOn, (groups_groupPairs _).mem_iff, valuesOf_map]
  constructor
  · intro h
    obtain ⟨rfl, hne⟩ := h
    obtain ⟨x, hx⟩ := List.exists_mem_of_ne_nil _ hne
    obtain ⟨hmem, hkey⟩ := List.mem_filter.1 hx
    exact ⟨⟨x, hmem, of_decide_eq_true hkey⟩, rfl⟩
  · intro h
    obtain ⟨⟨x, hx, hkey⟩, rfl⟩ := h
    refine ⟨rfl, List.ne_nil_of_mem (a := x) ?_⟩
    exact List.mem_filter.2 ⟨hx, decide_eq_true hkey⟩

theorem groupPairs_zip_map (f : α → κ) (values : List α) :
    groupPairs ((values.map f).zip values) = groupOn f values := by
  rw [groupOn]
  congr 1
  induction values with
  | nil => rfl
  | cons x values ih => rw [List.map_cons, List.zip_cons_cons, ih, List.map_cons]

theorem perm_insertGroup (key : κ) (value : α) (gs : List (κ × List α)) :
    ((insertGroup key value gs).flatMap Prod.snd).Perm (gs.flatMap Prod.snd ++ [value]) := by
  induction gs with
  | nil => exact .refl _
  | cons g gs ih =>
      rw [insertGroup]
      by_cases h : g.1 = key
      · rw [if_pos h, List.flatMap_cons, List.flatMap_cons, List.append_assoc, List.append_assoc]
        exact List.perm_append_comm.append_left g.2
      · rw [if_neg h, List.flatMap_cons, List.flatMap_cons, List.append_assoc]
        exact ih.append_left g.2

/-- Grouping loses nothing and repeats nothing. -/
theorem perm_groupOn (key : α → κ) (values : List α) :
    ((groupOn key values).flatMap Prod.snd).Perm values := by
  have hpairs : ∀ pairs : List (κ × α),
      ((groupPairs pairs).flatMap Prod.snd).Perm (pairs.map Prod.snd) := by
    intro pairs
    rw [← List.reverse_reverse pairs]
    induction pairs.reverse with
    | nil => exact .refl _
    | cons p ps ih =>
        rw [List.reverse_cons, groupPairs_append_singleton, List.map_append]
        exact (perm_insertGroup p.1 p.2 _).trans (ih.append_right [p.2])
  have hvalues := hpairs (values.map fun x => (key x, x))
  have hid : (Prod.snd ∘ fun x : α => (key x, x)) = id := rfl
  rwa [List.map_map, hid, List.map_id] at hvalues

/-! ## Other keys -/

section

variable {κ' : Type w} [DecidableEq κ'] {f : κ → κ'}

theorem insertGroup_map_key {key : κ} {gs : List (κ × List α)}
    (hf : ∀ g ∈ gs, f g.1 = f key → g.1 = key) (value : α) :
    insertGroup (f key) value (gs.map (Prod.map f id)) =
      (insertGroup key value gs).map (Prod.map f id) := by
  induction gs with
  | nil => rfl
  | cons g gs ih =>
      obtain ⟨hg, hgs⟩ := List.forall_mem_cons.1 hf
      rw [List.map_cons, insertGroup, insertGroup, ih hgs]
      by_cases h : g.1 = key
      · simp [h]
      · have hne : ¬ f g.1 = f key := fun heq => h (hg heq)
        simp [h, hne]

theorem exists_of_mem_groupPairs {pairs : List (κ × α)} {g : κ × List α}
    (hg : g ∈ groupPairs pairs) : ∃ p ∈ pairs, p.1 = g.1 := by
  obtain ⟨hvs, hne⟩ := ((groups_groupPairs pairs).mem_iff g.1 g.2).1 hg
  obtain ⟨v, hv⟩ := List.exists_mem_of_ne_nil _ (hvs ▸ hne)
  obtain ⟨p, hp, -⟩ := List.mem_map.1 hv
  obtain ⟨hp, hkey⟩ := List.mem_filter.1 hp
  exact ⟨p, hp, of_decide_eq_true hkey⟩

/-- Renaming the keys renames the keys of the groups, as long as different keys get different
names. -/
theorem groupPairs_map_key {pairs : List (κ × α)}
    (hf : ∀ p ∈ pairs, ∀ q ∈ pairs, f p.1 = f q.1 → p.1 = q.1) :
    groupPairs (pairs.map (Prod.map f id)) = (groupPairs pairs).map (Prod.map f id) := by
  induction pairs using List.reverseRecOn with
  | nil => rfl
  | append_singleton pairs p ih =>
      have hold := ih fun q hq r hr =>
        hf q (List.mem_append_left _ hq) r (List.mem_append_left _ hr)
      have hkeys : ∀ g ∈ groupPairs pairs, f g.1 = f p.1 → g.1 = p.1 := by
        intro g hg
        obtain ⟨q, hq, hkey⟩ := exists_of_mem_groupPairs hg
        rw [← hkey]
        exact hf q (List.mem_append_left _ hq) p
          (List.mem_append_right _ (List.mem_singleton_self p))
      calc groupPairs ((pairs ++ [p]).map (Prod.map f id))
          = insertGroup (f p.1) p.2 (groupPairs (pairs.map (Prod.map f id))) := by
            rw [List.map_append, List.map_singleton]
            exact groupPairs_append_singleton _ _ _
        _ = (insertGroup p.1 p.2 (groupPairs pairs)).map (Prod.map f id) := by
            rw [hold, insertGroup_map_key hkeys]
        _ = (groupPairs (pairs ++ [p])).map (Prod.map f id) := by
            rw [groupPairs_append_singleton]

end

end FiniteState
