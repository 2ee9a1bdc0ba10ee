import Mathlib.Data.Fintype.Card
import FiniteState.Proofs.Table.Conversion
import FiniteState.Proofs.Table.Partition
import FiniteState.Text.Primed

/-!
# The minimal table

The table of the blocks is run as the table is: a word leads from the block of a state to the
block of the state where it leads. So the verdicts stay as they are, all blocks are reached,
and words tell any two of them apart. A table of which this is so has the fewest states: in
any other table over the alphabet that accepts the same words, the words that lead to
different blocks lead to different states.
-/

namespace FiniteState.Table

variable {t : Table}

/-! ## Names of blocks -/

section Names

variable {b : Block}

theorem blockNames_cons_of_ne (hb : ∀ s, b ≠ [s]) (taken : List String) (blocks : List Block) :
    t.blockNames taken (b :: blocks) =
      Text.primed taken (Moves.setName (b.map t.name)) ::
        t.blockNames (Text.primed taken (Moves.setName (b.map t.name)) :: taken) blocks := by
  rw [blockNames]
  exact hb

theorem singleNames_cons_single (t : Table) (s : Nat) (blocks : List Block) :
    t.singleNames ([s] :: blocks) = t.name s :: t.singleNames blocks := rfl

theorem singleNames_cons_of_ne (hb : ∀ s, b ≠ [s]) (blocks : List Block) :
    t.singleNames (b :: blocks) = t.singleNames blocks := by
  rw [singleNames, List.filterMap_cons_none]
  · rfl
  · split
    · exact absurd rfl (hb _)
    · rfl

theorem length_blockNames (t : Table) (taken : List String) (blocks : List Block) :
    (t.blockNames taken blocks).length = blocks.length := by
  induction blocks generalizing taken with
  | nil => rfl
  | cons b blocks ih =>
      by_cases hb : ∃ s, b = [s]
      · obtain ⟨s, rfl⟩ := hb
        rw [blockNames, List.length_cons, ih, List.length_cons]
      · rw [blockNames_cons_of_ne (not_exists.1 hb), List.length_cons, ih, List.length_cons]

/-- A block is named after its only state, or else by a name that was free. -/
theorem mem_blockNames {taken : List String} {blocks : List Block} {name : String}
    (h : name ∈ t.blockNames taken blocks) :
    name ∈ t.singleNames blocks ∨ ¬ name ∈ taken := by
  induction blocks generalizing taken with
  | nil => cases h
  | cons b blocks ih =>
      by_cases hb : ∃ s, b = [s]
      · obtain ⟨s, rfl⟩ := hb
        rw [singleNames_cons_single]
        rw [blockNames] at h
        rcases List.mem_cons.1 h with rfl | h
        · exact .inl List.mem_cons_self
        · exact (ih h).imp (List.mem_cons_of_mem _) id
      · rw [singleNames_cons_of_ne (not_exists.1 hb)]
        rw [blockNames_cons_of_ne (not_exists.1 hb)] at h
        rcases List.mem_cons.1 h with rfl | h
        · exact .inr (Text.primed_not_mem _ _)
        · exact (ih h).imp id fun hnot hmem => hnot (List.mem_cons_of_mem _ hmem)

theorem nodup_blockNames {taken : List String} {blocks : List Block}
    (hn : (t.singleNames blocks).Nodup) (htaken : t.singleNames blocks ⊆ taken) :
    (t.blockNames taken blocks).Nodup := by
  induction blocks generalizing taken with
  | nil => exact List.nodup_nil
  | cons b blocks ih =>
      by_cases hb : ∃ s, b = [s]
      · obtain ⟨s, rfl⟩ := hb
        rw [singleNames_cons_single] at hn htaken
        obtain ⟨hs, hn⟩ := List.nodup_cons.1 hn
        obtain ⟨hmem, htaken⟩ := List.cons_subset.1 htaken
        rw [blockNames]
        refine List.nodup_cons.2 ⟨fun hname => ?_, ih hn htaken⟩
        rcases mem_blockNames hname with hsingle | hnot
        · exact hs hsingle
        · exact hnot hmem
      · rw [singleNames_cons_of_ne (not_exists.1 hb)] at hn htaken
        rw [blockNames_cons_of_ne (not_exists.1 hb)]
        refine List.nodup_cons.2 ⟨fun hname => ?_, ih hn ?_⟩
        · rcases mem_blockNames hname with hsingle | hnot
          · exact Text.primed_not_mem _ _ (htaken hsingle)
          · exact hnot List.mem_cons_self
        · exact List.subset_cons_of_subset _ htaken

/-- States that are alone in their blocks are different, and so are their names. -/
theorem nodup_singleNames (ht : t.WellFormed) {blocks : List Block}
    (hn : blocks.flatten.Nodup) (hlt : ∀ s ∈ blocks.flatten, s < t.size) :
    (t.singleNames blocks).Nodup := by
  induction blocks with
  | nil => exact List.nodup_nil
  | cons b blocks ih =>
      rw [List.flatten_cons] at hn hlt
      obtain ⟨-, hrest, hdisjoint⟩ := List.nodup_append.1 hn
      have hnodup := ih hrest fun s hs => hlt s (List.mem_append_right _ hs)
      by_cases hb : ∃ s, b = [s]
      · obtain ⟨s, rfl⟩ := hb
        rw [singleNames_cons_single]
        refine List.nodup_cons.2 ⟨fun hmem => ?_, hnodup⟩
        obtain ⟨b', hb', hname⟩ := List.mem_filterMap.1 hmem
        split at hname
        · next s' =>
            have hs' : s' ∈ blocks.flatten :=
              List.mem_flatten.2 ⟨[s'], hb', List.mem_singleton_self s'⟩
            have heq : s' = s := ht.name_inj (hlt s' (List.mem_append_right _ hs'))
              (hlt s (List.mem_append_left _ (List.mem_singleton_self s)))
              (Option.some.inj hname)
            exact hdisjoint s (List.mem_singleton_self s) s' hs' heq.symm
        · cases hname
      · rw [singleNames_cons_of_ne (not_exists.1 hb)]
        exact hnodup

end Names

/-! ## Rows -/

theorem size_minimise (t : Table) : t.minimise.size = t.blocks.length := by
  rw [minimise, size, quotient, List.length_zipWith, length_blockNames, Nat.min_self]

theorem names_minimise (t : Table) :
    t.minimise.names = t.blockNames (t.singleNames t.blocks) t.blocks := by
  apply List.ext_getElem
  · have hlength : t.minimise.names.length = t.minimise.size := List.length_map _
    rw [hlength, size_minimise, length_blockNames]
  · intro i hi hi'
    simp [names, minimise, quotient, blockRow]

section Rows

variable (ht : t.WellFormed)

include ht

/-- The row of a block can be read off any of its members. -/
theorem exists_row_minimise {s : Nat} (hs : t.LeadsTo s) :
    ∃ row, t.minimise.rows[blockOf t.blocks s]? = some row ∧
      row.accepting = t.accepting s ∧ row.next = t.signature t.blocks s := by
  have h := partition_blocks ht
  obtain ⟨b, hb, hsb⟩ := exists_block ((h.mem_iff s).2 hs)
  have hmem := List.mem_of_getElem? hb
  have hlt : blockOf t.blocks s <
      (t.blockNames (t.singleNames t.blocks) t.blocks).length := by
    rw [length_blockNames]
    exact (List.getElem?_eq_some_iff.1 hb).1
  obtain ⟨name, hname⟩ : ∃ name,
      (t.blockNames (t.singleNames t.blocks) t.blocks)[blockOf t.blocks s]? = some name :=
    ⟨_, List.getElem?_eq_getElem hlt⟩
  refine ⟨t.blockRow t.blocks b name, ?_, ?_, ?_⟩
  · rw [minimise, quotient, List.getElem?_zipWith, hb, hname]
  · have hany : b.any t.accepting = t.accepting s := by
      rw [Bool.eq_iff_iff, List.any_eq_true]
      constructor
      · intro hex
        obtain ⟨s', hs', haccepting⟩ := hex
        rw [h.accepting_eq b hmem s hsb s' hs', haccepting]
      · exact fun haccepting => ⟨s, hsb, haccepting⟩
    exact hany
  · match b, hmem, hsb with
    | s' :: b, hmem, hsb =>
        exact signature_eq_of_mem_blocks ht _ hmem s' List.mem_cons_self s hsb

theorem exists_blockOf_eq {i : Nat} (hi : i < t.minimise.size) :
    ∃ s, t.LeadsTo s ∧ blockOf t.blocks s = i := by
  have h := partition_blocks ht
  rw [size_minimise] at hi
  have hget := List.getElem?_eq_getElem hi
  obtain ⟨s, hs⟩ := List.exists_mem_of_ne_nil _ (h.ne_nil _ (List.mem_of_getElem? hget))
  have hmem : s ∈ t.blocks.flatten := List.mem_flatten.2 ⟨_, List.mem_of_getElem? hget, hs⟩
  exact ⟨s, (h.mem_iff s).1 hmem, blockOf_eq h.nodup hget hs⟩

theorem blockOf_lt {s : Nat} (hs : t.LeadsTo s) : blockOf t.blocks s < t.minimise.size := by
  obtain ⟨row, hrow, -⟩ := exists_row_minimise ht hs
  exact (List.getElem?_eq_some_iff.1 hrow).1

theorem next_minimise {s : Nat} (hs : t.LeadsTo s) :
    t.minimise.next (blockOf t.blocks s) = t.signature t.blocks s := by
  obtain ⟨row, hrow, -, hnext⟩ := exists_row_minimise ht hs
  rw [next_of_row hrow, hnext]

theorem accepting_minimise {s : Nat} (hs : t.LeadsTo s) :
    t.minimise.accepting (blockOf t.blocks s) = t.accepting s := by
  obtain ⟨row, hrow, haccepting, -⟩ := exists_row_minimise ht hs
  rw [accepting_of_row hrow, haccepting]

theorem wellFormed_minimise : t.minimise.WellFormed where
  symbols_ne_nil := ht.symbols_ne_nil
  names_nodup := by
    have h := partition_blocks ht
    rw [names_minimise]
    refine nodup_blockNames (nodup_singleNames ht h.nodup fun s hs => ?_) (List.Subset.refl _)
    exact ht.lt_of_leadsTo ((h.mem_iff s).1 hs)
  length_next := by
    intro row hrow
    obtain ⟨i, hi⟩ := List.getElem?_of_mem hrow
    obtain ⟨s, hs, rfl⟩ := exists_blockOf_eq ht (List.getElem?_eq_some_iff.1 hi).1
    obtain ⟨f, hf, -⟩ := ht.exists_step hs
    rw [← next_of_row hi, next_minimise ht hs, signature, hf, List.length_map, List.length_map]
    rfl
  next_lt := by
    intro row hrow n hn
    obtain ⟨i, hi⟩ := List.getElem?_of_mem hrow
    obtain ⟨s, hs, rfl⟩ := exists_blockOf_eq ht (List.getElem?_eq_some_iff.1 hi).1
    obtain ⟨f, hf, hstep⟩ := ht.exists_step hs
    rw [← next_of_row hi, next_minimise ht hs, signature, hf, List.map_map] at hn
    obtain ⟨c, hc, rfl⟩ := List.mem_map.1 hn
    exact blockOf_lt ht (hstep c hc).2
  start_lt := blockOf_lt ht t.leadsTo_start

/-! ## Runs -/

theorem step?_minimise {s : Nat} (hs : t.LeadsTo s) (c : Char) :
    t.minimise.step? (blockOf t.blocks s) c = (t.step? s c).map (blockOf t.blocks) := by
  obtain ⟨f, hf, -⟩ := ht.exists_step hs
  have hnext := next_minimise ht hs
  rw [signature, hf, List.map_map] at hnext
  rw [step?_of_next hnext, step?_of_next hf]
  have halphabet : t.minimise.alphabet = t.alphabet := rfl
  rw [halphabet]
  by_cases hc : c ∈ t.alphabet
  · rw [if_pos hc, if_pos hc]
    rfl
  · rw [if_neg hc, if_neg hc]
    rfl

/-- A word leads from the block of a state to the block of the state where it leads. -/
theorem run?_minimise {s : Nat} (hs : t.LeadsTo s) (w : List Char) :
    t.minimise.run? (blockOf t.blocks s) w = (t.run? s w).map (blockOf t.blocks) := by
  induction w generalizing s with
  | nil => rfl
  | cons c w ih =>
      rw [run?_cons, run?_cons, step?_minimise ht hs]
      cases hc : t.step? s c with
      | none => rfl
      | some n => exact ih (hs.step hc)

theorem verdictFrom_minimise {s : Nat} (hs : t.LeadsTo s) (w : List Char) :
    t.minimise.verdictFrom (blockOf t.blocks s) w = t.verdictFrom s w := by
  rw [verdictFrom, verdictFrom, run?_minimise ht hs]
  cases hw : t.run? s w with
  | none => rfl
  | some last =>
      obtain ⟨v, hv⟩ := hs
      have hlast : t.LeadsTo last := ⟨v ++ w, by rw [run?_append, hv, Option.bind_some, hw]⟩
      simp only [Option.map_some, accepting_minimise ht hlast]

theorem verdict_minimise (w : List Char) : t.minimise.verdict w = t.verdict w :=
  verdictFrom_minimise ht t.leadsTo_start w

theorem leadsTo_minimise {i : Nat} (hi : i < t.minimise.size) : t.minimise.LeadsTo i := by
  obtain ⟨s, hs, rfl⟩ := exists_blockOf_eq ht hi
  obtain ⟨w, hw⟩ := hs
  refine ⟨w, ?_⟩
  have hrun := run?_minimise ht t.leadsTo_start w
  rwa [hw] at hrun

/-- Words tell the states of the minimal table apart. -/
theorem eq_of_alike_minimise {i j : Nat} (hi : i < t.minimise.size) (hj : j < t.minimise.size)
    (h : t.minimise.Alike i j) : i = j := by
  obtain ⟨s, hs, rfl⟩ := exists_blockOf_eq ht hi
  obtain ⟨s', hs', rfl⟩ := exists_blockOf_eq ht hj
  refine (blockOf_blocks_eq_iff ht hs hs').2 fun w => ?_
  rw [← verdictFrom_minimise ht hs, ← verdictFrom_minimise ht hs', h w]

end Rows

theorem Valid.minimise (ht : t.Valid) : t.minimise.Valid where
  toWellFormed := wellFormed_minimise ht.toWellFormed
  epsilon_not_mem := ht.epsilon_not_mem

/-! ## Counting -/

/-- A word that one table reads is read by every table over its alphabet. -/
theorem WellFormed.exists_run? {u : Table} (ht : t.WellFormed) (hu : u.WellFormed)
    (halphabet : u.alphabet = t.alphabet) {w : List Char} {i : Nat}
    (hw : t.run? t.start w = some i) : ∃ j, u.run? u.start w = some j := by
  rw [hu.exists_run?_iff, halphabet, ← ht.exists_run?_iff]
  exact ⟨i, hw⟩

section Counting

variable {u : Table} (ht : t.WellFormed)
  (hapart : ∀ i < t.size, ∀ j < t.size, t.Alike i j → i = j)
  (hsame : ∀ w, u.verdict w = .accept ↔ t.verdict w = .accept)

include ht hapart hsame

/-- Words that lead to one state of some table lead to one state of each table that accepts the
same words and of which no two states are alike. -/
theorem eq_of_run?_eq {i j k : Nat} {v w : List Char} (hv : t.run? t.start v = some i)
    (hw : t.run? t.start w = some j) (hv' : u.run? u.start v = some k)
    (hw' : u.run? u.start w = some k) : i = j := by
  have hi := ht.lt_of_run? ht.start_lt hv
  have hj := ht.lt_of_run? ht.start_lt hw
  refine hapart i hi j hj (ht.alike_of_accept_iff hi hj fun x => ?_)
  rw [← verdictFrom_append t hv x, ← verdictFrom_append t hw x, ← verdict_eq_verdictFrom,
    ← verdict_eq_verdictFrom, ← hsame, ← hsame, verdict_eq_verdictFrom,
    verdict_eq_verdictFrom, verdictFrom_append u hv' x, verdictFrom_append u hw' x]

/-- A table whose states are all reached, and of which no two are alike, has no more states
than any other that accepts the same words. -/
theorem size_le_of_alike_eq (hu : u.WellFormed) (halphabet : u.alphabet = t.alphabet)
    (hreached : ∀ i < t.size, t.LeadsTo i) : t.size ≤ u.size := by
  -- A state of the table is sent to where a word that leads to it leads in the other table.
  have hword : ∀ i : Fin t.size, ∃ (j : Fin u.size) (w : List Char),
      t.run? t.start w = some i.1 ∧ u.run? u.start w = some j.1 := by
    intro i
    obtain ⟨w, hw⟩ := hreached i.1 i.2
    obtain ⟨j, hj⟩ := ht.exists_run? hu halphabet hw
    exact ⟨⟨j, hu.lt_of_run? hu.start_lt hj⟩, w, hw, hj⟩
  choose image hword using hword
  have hinjective : Function.Injective image := by
    intro i j hij
    obtain ⟨v, hv, hv'⟩ := hword i
    obtain ⟨w, hw, hw'⟩ := hword j
    exact Fin.ext (eq_of_run?_eq ht hapart hsame hv hw hv' (hij ▸ hw'))
  have hcard := Fintype.card_le_of_injective image hinjective
  rwa [Fintype.card_fin, Fintype.card_fin] at hcard

end Counting

end FiniteState.Table
