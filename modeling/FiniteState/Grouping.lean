/-!
# Grouping

Pairs of a key and a value are collected into one group for each key. The groups stand
in the order in which their keys are first met, and so do the values of each group.
-/

namespace FiniteState

universe u v

variable {κ : Type u} {α : Type v} [DecidableEq κ]

/-- Puts a value into the group of its key, or into a new group at the end. -/
def insertGroup (key : κ) (value : α) : List (κ × List α) → List (κ × List α)
  | [] => [(key, [value])]
  | g :: gs =>
      if g.1 = key then (g.1, g.2 ++ [value]) :: gs
      else g :: insertGroup key value gs

/-- The groups of a list of pairs. -/
def groupPairs (pairs : List (κ × α)) : List (κ × List α) :=
  pairs.foldl (fun gs p => insertGroup p.1 p.2 gs) []

/-- The members of a list, grouped by a key. -/
def groupOn (key : α → κ) (values : List α) : List (κ × List α) :=
  groupPairs (values.map fun x => (key x, x))

theorem groupPairs_append_singleton (pairs : List (κ × α)) (key : κ) (value : α) :
    groupPairs (pairs ++ [(key, value)]) = insertGroup key value (groupPairs pairs) := by
  simp [groupPairs]

theorem keys_insertGroup (key : κ) (value : α) (gs : List (κ × List α)) :
    (insertGroup key value gs).map Prod.fst =
      if key ∈ gs.map Prod.fst then gs.map Prod.fst else gs.map Prod.fst ++ [key] := by
  induction gs with
  | nil => simp [insertGroup]
  | cons g gs ih =>
      rw [insertGroup]
      split
      · next h => simp [h]
      · next h =>
          have hne : ¬ key = g.1 := fun he => h he.symm
          rw [List.map_cons, ih, List.map_cons]
          simp only [List.mem_cons, hne, false_or]
          split <;> rfl

theorem mem_insertGroup (key k : κ) (value : α) (vs : List α) (gs : List (κ × List α))
    (hn : (gs.map Prod.fst).Nodup) :
    (k, vs) ∈ insertGroup key value gs ↔
      (k ≠ key ∧ (k, vs) ∈ gs) ∨
        (k = key ∧ ((∃ us, (key, us) ∈ gs ∧ vs = us ++ [value]) ∨
          (¬ key ∈ gs.map Prod.fst ∧ vs = [value]))) := by
  induction gs with
  | nil => simp [insertGroup]
  | cons g gs ih =>
      obtain ⟨j, us⟩ := g
      have hn' := List.nodup_cons.1 hn
      rw [insertGroup]
      by_cases h : j = key
      · subst h
        have hnot : ∀ ws, ¬ (j, ws) ∈ gs := fun ws hm =>
          hn'.1 (List.mem_map.2 ⟨(j, ws), hm, rfl⟩)
        by_cases hk : k = j
        · subst hk
          simp [hnot]
        · simp [hk]
      · rw [if_neg h, List.mem_cons, ih hn'.2]
        have hj : ¬ key = j := fun he => h he.symm
        by_cases hk : k = key
        · subst hk
          simp [hj]
        · simp [hk]

/-- The values that have a key, in their order. -/
def valuesOf (key : κ) (pairs : List (κ × α)) : List α :=
  (pairs.filter fun p => p.1 = key).map Prod.snd

@[simp] theorem valuesOf_nil (key : κ) : valuesOf key ([] : List (κ × α)) = [] := rfl

theorem valuesOf_append (key : κ) (ps qs : List (κ × α)) :
    valuesOf key (ps ++ qs) = valuesOf key ps ++ valuesOf key qs := by
  simp [valuesOf]

theorem valuesOf_singleton_self (key : κ) (value : α) :
    valuesOf key [(key, value)] = [value] := by
  simp [valuesOf]

theorem valuesOf_singleton_of_ne (key k : κ) (value : α) (h : ¬ k = key) :
    valuesOf key [(k, value)] = [] := by
  simp [valuesOf, h]

/-- The groups of a list of pairs, told by their keys. -/
structure Groups (pairs : List (κ × α)) (gs : List (κ × List α)) : Prop where
  nodup : (gs.map Prod.fst).Nodup
  mem_iff : ∀ key vs, (key, vs) ∈ gs ↔ vs = valuesOf key pairs ∧ vs ≠ []

theorem Groups.insert {pairs : List (κ × α)} {gs : List (κ × List α)}
    (h : Groups pairs gs) (key : κ) (value : α) :
    Groups (pairs ++ [(key, value)]) (insertGroup key value gs) := by
  constructor
  · rw [keys_insertGroup]
    split
    · exact h.nodup
    · next hk => exact List.nodup_append.2 ⟨h.nodup, by simp, by
        intro a ha b hb hab
        rw [List.mem_singleton] at hb
        exact hk (hb ▸ hab ▸ ha)⟩
  · intro k vs
    rw [mem_insertGroup key k value vs gs h.nodup, valuesOf_append]
    by_cases hk : k = key
    · subst hk
      rw [valuesOf_singleton_self]
      constructor
      · rintro (⟨hne, _⟩ | ⟨_, ⟨us, hus, rfl⟩ | ⟨hnot, rfl⟩⟩)
        · exact absurd rfl hne
        · exact ⟨by rw [((h.mem_iff k us).1 hus).1], by simp⟩
        · have hnil : valuesOf k pairs = [] := by
            cases hv : valuesOf k pairs with
            | nil => rfl
            | cons u us =>
                refine absurd (List.mem_map_of_mem (f := Prod.fst) ((h.mem_iff k (u :: us)).2
                  ⟨hv.symm, by simp⟩)) hnot
          exact ⟨by rw [hnil]; rfl, by simp⟩
      · rintro ⟨rfl, _⟩
        refine .inr ⟨rfl, ?_⟩
        cases hv : valuesOf k pairs with
        | nil =>
            refine .inr ⟨fun hm => ?_, rfl⟩
            obtain ⟨⟨j, us⟩, hg, rfl⟩ := List.mem_map.1 hm
            have := (h.mem_iff j us).1 hg
            exact this.2 (this.1.trans hv)
        | cons u us =>
            exact .inl ⟨u :: us, (h.mem_iff k _).2 ⟨hv.symm, by simp⟩, rfl⟩
    · rw [valuesOf_singleton_of_ne k key value fun he => hk he.symm, List.append_nil,
        ← h.mem_iff k vs]
      simp [hk]

/-- There is one group for each key, and it holds the values of the key in their order. -/
theorem groups_groupPairs (pairs : List (κ × α)) : Groups pairs (groupPairs pairs) := by
  suffices h : ∀ (qs ps : List (κ × α)) (gs : List (κ × List α)), Groups ps gs →
      Groups (ps ++ qs) (qs.foldl (fun gs p => insertGroup p.1 p.2 gs) gs) by
    have := h pairs [] [] ⟨List.nodup_nil, by simp⟩
    rwa [List.nil_append] at this
  intro qs
  induction qs with
  | nil => intro ps gs h; simpa using h
  | cons q qs ih =>
      intro ps gs h
      rw [List.foldl_cons, List.append_cons]
      exact ih _ _ (h.insert q.1 q.2)

end FiniteState
