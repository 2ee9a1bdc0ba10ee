import Mathlib.Data.List.Nodup
import FiniteState.BreadthFirst.Reachability
import FiniteState.Proofs.Grouping
import FiniteState.Proofs.Table.Lookup
import FiniteState.Table.Minimise

/-!
# Refining the blocks

The states that words lead to are divided into blocks. A split keeps three things: the blocks
hold each of these states once, the states of a block agree on acceptance, and a block holds
all states that are like one of its members. The last says that a split never goes too far.
It stops late enough because every split makes one block more, and there are no more blocks
than states: when the splits are used up, no block can be split.

When no block can be split, the states of a block lead to the same blocks, and so no word
tells them apart. Then the blocks are exactly the classes of like states.
-/

namespace FiniteState.Table

variable {t : Table}

/-! ## States that no word tells apart -/

/-- No word tells the states apart. -/
def Alike (t : Table) (s s' : Nat) : Prop := ∀ w, t.verdictFrom s w = t.verdictFrom s' w

theorem Alike.accepting_eq {s s' : Nat} (h : t.Alike s s') : t.accepting s = t.accepting s' := by
  have hnil := h []
  rw [verdictFrom_nil, verdictFrom_nil] at hnil
  cases hs : t.accepting s with
  | false =>
      cases hs' : t.accepting s' with
      | false => rfl
      | true => simp [hs, hs'] at hnil
  | true =>
      cases hs' : t.accepting s' with
      | false => simp [hs, hs'] at hnil
      | true => rfl

theorem Alike.step {s s' n n' : Nat} {c : Char} (h : t.Alike s s')
    (hn : t.step? s c = some n) (hn' : t.step? s' c = some n') : t.Alike n n' := by
  intro w
  have hcons := h (c :: w)
  rwa [verdictFrom_cons t hn, verdictFrom_cons t hn'] at hcons

/-- Words that lead to acceptance are enough to tell states apart. -/
theorem WellFormed.alike_of_accept_iff (ht : t.WellFormed) {s s' : Nat} (hs : s < t.size)
    (hs' : s' < t.size)
    (h : ∀ w, t.verdictFrom s w = .accept ↔ t.verdictFrom s' w = .accept) : t.Alike s s' := by
  intro w
  have haccept := h w
  have hcrash : t.verdictFrom s w = .crash ↔ t.verdictFrom s' w = .crash := by
    rw [ht.verdictFrom_eq_crash_iff hs, ht.verdictFrom_eq_crash_iff hs']
  cases hv : t.verdictFrom s w with
  | accept => exact (haccept.1 hv).symm
  | crash => exact (hcrash.1 hv).symm
  | reject =>
      cases hv' : t.verdictFrom s' w with
      | accept => exact hv ▸ haccept.2 hv'
      | crash => exact hv ▸ hcrash.2 hv'
      | reject => rfl

/-! ## Reachable states -/

theorem WellFormed.exists_step (ht : t.WellFormed) {s : Nat} (hs : t.LeadsTo s) :
    ∃ f : Char → Nat, t.next s = t.alphabet.symbols.map f ∧
      ∀ c ∈ t.alphabet, t.step? s c = some (f c) ∧ t.LeadsTo (f c) := by
  obtain ⟨f, hf⟩ := ht.exists_next_eq_map (ht.lt_of_leadsTo hs)
  refine ⟨f, hf, fun c hc => ?_⟩
  have hstep : t.step? s c = some (f c) := by
    rw [step?_of_next hf, if_pos hc]
  exact ⟨hstep, hs.step hstep⟩

theorem WellFormed.mem_edges_iff (ht : t.WellFormed) {s : Nat} (hs : s < t.size) (c : Char)
    (n : Nat) : (c, n) ∈ t.edges s ↔ t.step? s c = some n := by
  obtain ⟨f, hf⟩ := ht.exists_next_eq_map hs
  have hzip : ∀ cs : List Char, (c, n) ∈ cs.zip (cs.map f) ↔ c ∈ cs ∧ f c = n := by
    intro cs
    induction cs with
    | nil => simp
    | cons d cs ih =>
        rw [List.map_cons, List.zip_cons_cons, List.mem_cons, ih, List.mem_cons, Prod.mk.injEq]
        constructor
        · intro h
          rcases h with ⟨rfl, rfl⟩ | ⟨hc, hn⟩
          · exact ⟨.inl rfl, rfl⟩
          · exact ⟨.inr hc, hn⟩
        · intro h
          obtain ⟨rfl | hc, hn⟩ := h
          · exact .inl ⟨rfl, hn.symm⟩
          · exact .inr ⟨hc, hn⟩
  rw [edges, hf, hzip, step?_of_next hf, Option.ite_none_right_eq_some, Option.some.injEq,
    Alphabet.mem_def]

section Reachable

variable (ht : t.WellFormed)

include ht

theorem endsBy_edges : BreadthFirst.EndsBy t.edges t.size [t.start] := by
  refine ⟨List.nodup_singleton _, List.range t.size,
    List.forall_mem_singleton.2 (List.mem_range.2 ht.start_lt), ?_, Nat.le_of_eq List.length_range⟩
  intro s hs e he
  have hlt := List.mem_range.1 hs
  exact List.mem_range.2 (ht.lt_of_step? hlt ((ht.mem_edges_iff hlt e.1 e.2).1 he))

theorem nodup_reachable : t.reachable.Nodup :=
  (endsBy_edges ht).nodup_nodes

/-- The search meets the states that words lead to. -/
theorem mem_reachable_iff (s : Nat) : s ∈ t.reachable ↔ t.LeadsTo s := by
  refine ((endsBy_edges ht).mem_nodes_iff s).trans ?_
  constructor
  · intro h
    refine BreadthFirst.Reaches.of_closed (p := t.LeadsTo) ?_ ?_ h
    · intro s hs
      rw [List.mem_singleton.1 hs]
      exact t.leadsTo_start
    · intro s hs e he
      exact hs.step ((ht.mem_edges_iff (ht.lt_of_leadsTo hs) e.1 e.2).1 he)
  · intro h
    obtain ⟨w, hw⟩ := h
    suffices hfrom : ∀ p, t.LeadsTo p → BreadthFirst.Reaches t.edges [t.start] p →
        t.run? p w = some s → BreadthFirst.Reaches t.edges [t.start] s from
      hfrom t.start t.leadsTo_start (BreadthFirst.reaches_start _ _ _ List.mem_cons_self) hw
    clear hw
    induction w with
    | nil =>
        intro p _ hp hrun
        rw [run?_nil, Option.some.injEq] at hrun
        exact hrun ▸ hp
    | cons c w ih =>
        intro p hlead hp hrun
        rw [run?_cons] at hrun
        obtain ⟨n, hn, hrest⟩ := Option.bind_eq_some_iff.1 hrun
        have he := (ht.mem_edges_iff (ht.lt_of_leadsTo hlead) c n).2 hn
        exact ih n (hlead.step hn) (hp.next he) hrest

end Reachable

/-! ## Blocks -/

/-- What a split keeps. -/
structure Partition (t : Table) (blocks : List Block) : Prop where
  ne_nil : ∀ b ∈ blocks, b ≠ []
  /-- No state stands twice. -/
  nodup : blocks.flatten.Nodup
  mem_iff : ∀ s, s ∈ blocks.flatten ↔ t.LeadsTo s
  accepting_eq : ∀ b ∈ blocks, ∀ s ∈ b, ∀ s' ∈ b, t.accepting s = t.accepting s'
  /-- States that no word tells apart have not been parted. -/
  alike_mem : ∀ b ∈ blocks, ∀ s ∈ b, ∀ s', t.LeadsTo s' → t.Alike s s' → s' ∈ b

section BlockOf

variable {blocks : List Block} {s s' : Nat}

theorem exists_block (h : s ∈ blocks.flatten) :
    ∃ b, blocks[blockOf blocks s]? = some b ∧ s ∈ b := by
  obtain ⟨b, hb, hs⟩ := List.mem_flatten.1 h
  have hlt : blockOf blocks s < blocks.length :=
    List.findIdx_lt_length_of_exists ⟨b, hb, List.contains_iff_mem.2 hs⟩
  have hfound : (blocks[blockOf blocks s]).contains s = true :=
    List.findIdx_getElem (w := hlt)
  exact ⟨_, List.getElem?_eq_getElem hlt, List.contains_iff_mem.1 hfound⟩

/-- Blocks that share a state are one block. -/
theorem index_unique (hn : blocks.flatten.Nodup) {i j : Nat} {b b' : Block}
    (hb : blocks[i]? = some b) (hb' : blocks[j]? = some b') (hs : s ∈ b) (hs' : s ∈ b') :
    i = j := by
  obtain ⟨hi, rfl⟩ := List.getElem?_eq_some_iff.1 hb
  obtain ⟨hj, rfl⟩ := List.getElem?_eq_some_iff.1 hb'
  have hpairwise := List.pairwise_iff_getElem.1 (List.nodup_flatten.1 hn).2
  rcases Nat.lt_trichotomy i j with hlt | heq | hlt
  · exact absurd hs' (hpairwise i j hi hj hlt hs)
  · exact heq
  · exact absurd hs (hpairwise j i hj hi hlt hs')

theorem blockOf_eq (hn : blocks.flatten.Nodup) {i : Nat} {b : Block}
    (hb : blocks[i]? = some b) (hs : s ∈ b) : blockOf blocks s = i := by
  have hmem : s ∈ blocks.flatten := List.mem_flatten.2 ⟨b, List.mem_of_getElem? hb, hs⟩
  obtain ⟨b', hb', hs'⟩ := exists_block hmem
  exact index_unique hn hb' hb hs' hs

theorem blockOf_eq_blockOf_iff (hn : blocks.flatten.Nodup) (hs : s ∈ blocks.flatten)
    (hs' : s' ∈ blocks.flatten) :
    blockOf blocks s = blockOf blocks s' ↔ ∃ b ∈ blocks, s ∈ b ∧ s' ∈ b := by
  constructor
  · intro h
    obtain ⟨b, hb, hsb⟩ := exists_block hs
    obtain ⟨b', hb', hsb'⟩ := exists_block hs'
    rw [h, hb', Option.some.injEq] at hb
    exact ⟨b, List.mem_of_getElem? (hb ▸ hb'), hsb, hb ▸ hsb'⟩
  · intro h
    obtain ⟨b, hb, hsb, hsb'⟩ := h
    obtain ⟨i, hi⟩ := List.getElem?_of_mem hb
    rw [blockOf_eq hn hi hsb, blockOf_eq hn hi hsb']

end BlockOf

namespace Partition

variable {blocks : List Block}

/-- There are no more blocks than states. -/
theorem length_le (ht : t.WellFormed) (h : t.Partition blocks) : blocks.length ≤ t.size := by
  have hflatten : blocks.length ≤ blocks.flatten.length := by
    have hne := h.ne_nil
    clear h
    induction blocks with
    | nil => exact Nat.zero_le _
    | cons b blocks ih =>
        have hb : 0 < b.length := List.length_pos_iff.2 (hne b List.mem_cons_self)
        have hrest := ih fun b' hb' => hne b' (List.mem_cons_of_mem b hb')
        rw [List.flatten_cons, List.length_append, List.length_cons]
        omega
  have hsub : blocks.flatten ⊆ List.range t.size := by
    intro s hs
    exact List.mem_range.2 (ht.lt_of_leadsTo ((h.mem_iff s).1 hs))
  have hlength := (h.nodup.subperm hsub).length_le
  rw [List.length_range] at hlength
  exact Nat.le_trans hflatten hlength

/-- The members of a block that are alike have the same signature. -/
theorem signature_eq (ht : t.WellFormed) (h : t.Partition blocks) {s s' : Nat}
    (hs : t.LeadsTo s) (hs' : t.LeadsTo s') (halike : t.Alike s s') :
    t.signature blocks s = t.signature blocks s' := by
  obtain ⟨f, hf, hstep⟩ := ht.exists_step hs
  obtain ⟨f', hf', hstep'⟩ := ht.exists_step hs'
  rw [signature, signature, hf, hf', List.map_map, List.map_map]
  refine List.map_congr_left fun c hc => ?_
  obtain ⟨hn, hlead⟩ := hstep c hc
  obtain ⟨hn', hlead'⟩ := hstep' c hc
  have hmem := (h.mem_iff _).2 hlead
  obtain ⟨b, hb, hsb⟩ := List.mem_flatten.1 hmem
  refine (blockOf_eq_blockOf_iff h.nodup hmem ((h.mem_iff _).2 hlead')).2 ⟨b, hb, hsb, ?_⟩
  exact h.alike_mem b hb _ hsb _ hlead' (halike.step hn hn')

end Partition

/-! ## Splits -/

section Split

variable {blocks : List Block}

/-- A part of a block is made of the members with one signature. -/
theorem mem_partsOf_iff (t : Table) (blocks : List Block) (block part : Block) :
    part ∈ t.partsOf blocks block ↔ ∃ s ∈ block,
      part = block.filter fun s' => t.signature blocks s' = t.signature blocks s := by
  rw [partsOf, List.mem_map]
  constructor
  · intro h
    obtain ⟨⟨k, part⟩, hg, rfl⟩ := h
    obtain ⟨⟨s, hs, rfl⟩, hpart⟩ := (mem_groupOn_iff _ _ _ _).1 hg
    exact ⟨s, hs, hpart⟩
  · intro h
    obtain ⟨s, hs, rfl⟩ := h
    exact ⟨(t.signature blocks s, _), (mem_groupOn_iff _ _ _ _).2 ⟨⟨s, hs, rfl⟩, rfl⟩, rfl⟩

theorem perm_flatten_partsOf (t : Table) (blocks : List Block) (block : Block) :
    (t.partsOf blocks block).flatten.Perm block :=
  perm_groupOn (t.signature blocks) block

theorem firstSplit_eq_some {i k : Nat} {rest others : List Block} {first : Block}
    (h : t.firstSplit blocks i rest = some (k, first, others)) :
    ∃ before block after, rest = before ++ block :: after ∧ k = i + before.length ∧
      t.partsOf blocks block = first :: others ∧ others ≠ [] := by
  induction rest generalizing i with
  | nil => cases h
  | cons b rest ih =>
      rw [firstSplit] at h
      split at h
      · next first' second others' hparts =>
          cases h
          exact ⟨[], b, rest, rfl, rfl, hparts, List.cons_ne_nil _ _⟩
      · obtain ⟨before, block, after, rfl, rfl, hparts, hne⟩ := ih h
        refine ⟨b :: before, block, after, rfl, ?_, hparts, hne⟩
        rw [List.length_cons, Nat.add_right_comm, Nat.add_assoc]

/-- When no block can be split, the members of each block have the same signature. -/
theorem signature_eq_of_firstSplit {i : Nat} {rest : List Block}
    (h : t.firstSplit blocks i rest = none) :
    ∀ b ∈ rest, ∀ s ∈ b, ∀ s' ∈ b, t.signature blocks s = t.signature blocks s' := by
  induction rest generalizing i with
  | nil => simp
  | cons b rest ih =>
      rw [firstSplit] at h
      split at h
      · cases h
      · next hparts =>
          intro b' hb'
          rcases List.mem_cons.1 hb' with rfl | hmem
          · intro s hs s' hs'
            -- Both states stand in the one part that there is.
            have hpart := (mem_partsOf_iff t blocks b' _).2 ⟨s, hs, rfl⟩
            have hpart' := (mem_partsOf_iff t blocks b' _).2 ⟨s', hs', rfl⟩
            have hone : ∀ p ∈ t.partsOf blocks b', ∀ q ∈ t.partsOf blocks b', p = q := by
              intro p hp q hq
              match hlist : t.partsOf blocks b' with
              | [] =>
                  rw [hlist] at hp
                  cases hp
              | [part] =>
                  rw [hlist] at hp hq
                  rw [List.mem_singleton.1 hp, List.mem_singleton.1 hq]
              | first :: second :: others => exact absurd hlist (hparts first second others)
            have hmem : s ∈ b'.filter fun r => t.signature blocks r = t.signature blocks s' := by
              rw [← hone _ hpart _ hpart']
              exact List.mem_filter.2 ⟨hs, decide_eq_true rfl⟩
            exact of_decide_eq_true (List.mem_filter.1 hmem).2
          · exact ih h b' hmem

section Parts

variable {before after others : List Block} {block first : Block}

/-- A split only moves states. -/
theorem perm_flatten_split
    (hparts : t.partsOf (before ++ block :: after) block = first :: others) :
    (before ++ first :: after ++ others).flatten.Perm (before ++ block :: after).flatten := by
  have hblock : (first :: others).flatten.Perm block :=
    hparts ▸ perm_flatten_partsOf t (before ++ block :: after) block
  have hmove : (before ++ first :: after ++ others).Perm
      (before ++ (first :: others ++ after)) := by
    rw [List.append_assoc]
    exact (List.perm_append_comm.cons first).append_left before
  refine hmove.flatten.trans ?_
  rw [List.flatten_append, List.flatten_append, List.flatten_append, List.flatten_cons]
  exact (hblock.append_right after.flatten).append_left before.flatten

/-- A block of a split is an old one or one of the parts. -/
theorem mem_split (hparts : t.partsOf (before ++ block :: after) block = first :: others)
    {b : Block} (hb : b ∈ before ++ first :: after ++ others) :
    b ∈ before ++ block :: after ∨ ∃ s ∈ block, b = block.filter fun s' =>
      t.signature (before ++ block :: after) s' =
        t.signature (before ++ block :: after) s := by
  rw [← mem_partsOf_iff, hparts]
  rcases List.mem_append.1 hb with hb | hb
  · rcases List.mem_append.1 hb with hb | hb
    · exact .inl (List.mem_append_left _ hb)
    · rcases List.mem_cons.1 hb with rfl | hb
      · exact .inr List.mem_cons_self
      · exact .inl (List.mem_append_right _ (List.mem_cons_of_mem _ hb))
  · exact .inr (List.mem_cons_of_mem _ hb)

/-- A split keeps what it should. -/
theorem Partition.split (ht : t.WellFormed) (h : t.Partition (before ++ block :: after))
    (hparts : t.partsOf (before ++ block :: after) block = first :: others) :
    t.Partition (before ++ first :: after ++ others) := by
  have hperm := perm_flatten_split hparts
  have hmem := fun b (hb : b ∈ before ++ first :: after ++ others) => mem_split hparts hb
  have hblock : block ∈ before ++ block :: after :=
    List.mem_append_right before List.mem_cons_self
  constructor
  case ne_nil =>
    intro b hb
    rcases hmem b hb with hold | ⟨s, hs, rfl⟩
    · exact h.ne_nil b hold
    · exact List.ne_nil_of_mem (List.mem_filter.2 ⟨hs, decide_eq_true rfl⟩)
  case nodup => exact hperm.nodup_iff.2 h.nodup
  case mem_iff => exact fun s => hperm.mem_iff.trans (h.mem_iff s)
  case accepting_eq =>
    intro b hb s hs s' hs'
    rcases hmem b hb with hold | ⟨r, -, rfl⟩
    · exact h.accepting_eq b hold s hs s' hs'
    · exact h.accepting_eq block hblock s (List.mem_filter.1 hs).1 s' (List.mem_filter.1 hs').1
  case alike_mem =>
    intro b hb s hs s' hlead halike
    rcases hmem b hb with hold | ⟨r, -, rfl⟩
    · exact h.alike_mem b hold s hs s' hlead halike
    · obtain ⟨hsb, hsig⟩ := List.mem_filter.1 hs
      have hs' := h.alike_mem block hblock s hsb s' hlead halike
      have hleads : t.LeadsTo s :=
        (h.mem_iff s).1 (List.mem_flatten.2 ⟨block, hblock, hsb⟩)
      have heq := h.signature_eq ht hleads hlead halike
      exact List.mem_filter.2 ⟨hs', decide_eq_true (heq.symm.trans (of_decide_eq_true hsig))⟩

end Parts

/-- The split that is made next keeps a partition and makes more blocks. -/
theorem Partition.of_firstSplit (ht : t.WellFormed) (h : t.Partition blocks) {k : Nat}
    {first : Block} {others : List Block}
    (hsplit : t.firstSplit blocks 0 blocks = some (k, first, others)) :
    t.Partition (blocks.set k first ++ others) ∧
      blocks.length < (blocks.set k first ++ others).length := by
  obtain ⟨before, block, after, rfl, rfl, hparts, hne⟩ := firstSplit_eq_some hsplit
  have hset : (before ++ block :: after).set (0 + before.length) first ++ others =
      before ++ first :: after ++ others := by
    rw [Nat.zero_add, List.set_append_right _ _ (Nat.le_refl _), Nat.sub_self, List.set_cons_zero]
  have hpos := List.length_pos_iff.2 hne
  rw [hset]
  refine ⟨h.split ht hparts, ?_⟩
  simp only [List.length_append, List.length_cons]
  omega

/-- Refining keeps a partition, however many splits are made. -/
theorem partition_refine (ht : t.WellFormed) (n : Nat) (h : t.Partition blocks) :
    t.Partition (t.refine n blocks).1 := by
  induction n generalizing blocks with
  | zero => exact h
  | succ n ih =>
      rw [refine]
      cases hsplit : t.firstSplit blocks 0 blocks with
      | none => exact h
      | some split => exact ih (h.of_firstSplit ht hsplit).1

/-- With as many splits to go as there can be blocks more, refining ends in blocks that cannot be
split. -/
theorem signature_eq_of_mem_refine (ht : t.WellFormed) (n : Nat) (h : t.Partition blocks)
    (hn : t.size ≤ blocks.length + n) :
    ∀ b ∈ (t.refine n blocks).1, ∀ s ∈ b, ∀ s' ∈ b,
      t.signature (t.refine n blocks).1 s = t.signature (t.refine n blocks).1 s' := by
  induction n generalizing blocks with
  | zero =>
      rw [refine]
      refine signature_eq_of_firstSplit (i := 0) ?_
      cases hsplit : t.firstSplit blocks 0 blocks with
      | none => rfl
      | some split =>
          -- One split more would make more blocks than there are states.
          obtain ⟨hsplit, hlt⟩ := h.of_firstSplit ht hsplit
          have hle := hsplit.length_le ht
          omega
  | succ n ih =>
      rw [refine]
      cases hsplit : t.firstSplit blocks 0 blocks with
      | none => exact signature_eq_of_firstSplit hsplit
      | some split =>
          obtain ⟨hsplit, hlt⟩ := h.of_firstSplit ht hsplit
          exact ih hsplit (by omega)

end Split

/-! ## The blocks -/

theorem partition_initialBlocks (ht : t.WellFormed) : t.Partition t.initialBlocks := by
  have hflatten : t.initialBlocks.flatten.Perm t.reachable := by
    have happend : t.initialBlocks.flatten =
        t.reachable.filter (fun s => !t.accepting s) ++ t.reachable.filter t.accepting := by
      rw [initialBlocks, List.flatten_filter_not_isEmpty, List.flatten_cons, List.flatten_cons,
        List.flatten_nil, List.append_nil]
    rw [happend]
    exact List.perm_append_comm.trans (List.filter_append_perm t.accepting t.reachable)
  -- Which states stand in a first block is a matter of acceptance.
  have hmem : ∀ b ∈ t.initialBlocks, b ≠ [] ∧ ∃ v : Bool,
      ∀ s, s ∈ b ↔ t.LeadsTo s ∧ t.accepting s = v := by
    intro b hb
    obtain ⟨hb, hne⟩ := List.mem_filter.1 hb
    refine ⟨by simpa using hne, ?_⟩
    rcases List.mem_cons.1 hb with rfl | hb
    · refine ⟨false, fun s => ?_⟩
      rw [List.mem_filter, mem_reachable_iff ht, Bool.not_eq_true']
    · rw [List.mem_singleton.1 hb]
      refine ⟨true, fun s => ?_⟩
      rw [List.mem_filter, mem_reachable_iff ht]
  constructor
  case ne_nil => exact fun b hb => (hmem b hb).1
  case nodup => exact hflatten.nodup_iff.2 (nodup_reachable ht)
  case mem_iff => exact fun s => hflatten.mem_iff.trans (mem_reachable_iff ht s)
  case accepting_eq =>
    intro b hb s hs s' hs'
    obtain ⟨-, v, hv⟩ := hmem b hb
    rw [((hv s).1 hs).2, ((hv s').1 hs').2]
  case alike_mem =>
    intro b hb s hs s' hlead halike
    obtain ⟨-, v, hv⟩ := hmem b hb
    exact (hv s').2 ⟨hlead, halike.accepting_eq.symm.trans ((hv s).1 hs).2⟩

theorem partition_blocks (ht : t.WellFormed) : t.Partition t.blocks :=
  partition_refine ht t.size (partition_initialBlocks ht)

theorem signature_eq_of_mem_blocks (ht : t.WellFormed) :
    ∀ b ∈ t.blocks, ∀ s ∈ b, ∀ s' ∈ b, t.signature t.blocks s = t.signature t.blocks s' :=
  signature_eq_of_mem_refine ht t.size (partition_initialBlocks ht) (Nat.le_add_left _ _)

/-- No word tells the states of a block apart. -/
theorem alike_of_mem_blocks (ht : t.WellFormed) {b : Block} (hb : b ∈ t.blocks) {s s' : Nat}
    (hs : s ∈ b) (hs' : s' ∈ b) : t.Alike s s' := by
  have h := partition_blocks ht
  intro w
  induction w generalizing b s s' with
  | nil => rw [verdictFrom_nil, verdictFrom_nil, h.accepting_eq b hb s hs s' hs']
  | cons c w ih =>
      have hleads : ∀ r ∈ b, t.LeadsTo r := fun r hr =>
        (h.mem_iff r).1 (List.mem_flatten.2 ⟨b, hb, hr⟩)
      obtain ⟨f, hf, hstep⟩ := ht.exists_step (hleads s hs)
      obtain ⟨f', hf', hstep'⟩ := ht.exists_step (hleads s' hs')
      by_cases hc : c ∈ t.alphabet
      · have hsig := signature_eq_of_mem_blocks ht b hb s hs s' hs'
        rw [signature, signature, hf, hf', List.map_map, List.map_map] at hsig
        have heq : blockOf t.blocks (f c) = blockOf t.blocks (f' c) :=
          List.map_inj_left.1 hsig c hc
        obtain ⟨hn, hlead⟩ := hstep c hc
        obtain ⟨hn', hlead'⟩ := hstep' c hc
        obtain ⟨b', hb', hsb, hsb'⟩ := (blockOf_eq_blockOf_iff h.nodup ((h.mem_iff _).2 hlead)
          ((h.mem_iff _).2 hlead')).1 heq
        rw [verdictFrom_cons t hn, verdictFrom_cons t hn']
        exact ih hb' hsb hsb'
      · -- Neither state can read a symbol from outside of the alphabet.
        have hcrash : ∀ r ∈ b, t.verdictFrom r (c :: w) = .crash := fun r hr =>
          (ht.verdictFrom_eq_crash_iff (ht.lt_of_leadsTo (hleads r hr)) _).2
            ⟨c, List.mem_cons_self, hc⟩
        rw [hcrash s hs, hcrash s' hs']

/-- Two states stand in one block exactly if no word tells them apart. -/
theorem blockOf_blocks_eq_iff (ht : t.WellFormed) {s s' : Nat} (hs : t.LeadsTo s)
    (hs' : t.LeadsTo s') : blockOf t.blocks s = blockOf t.blocks s' ↔ t.Alike s s' := by
  have h := partition_blocks ht
  rw [blockOf_eq_blockOf_iff h.nodup ((h.mem_iff s).2 hs) ((h.mem_iff s').2 hs')]
  constructor
  · intro hblock
    obtain ⟨b, hb, hsb, hsb'⟩ := hblock
    exact alike_of_mem_blocks ht hb hsb hsb'
  · intro halike
    obtain ⟨b, hb, hsb⟩ := List.mem_flatten.1 ((h.mem_iff s).2 hs)
    exact ⟨b, hb, hsb, h.alike_mem b hb s hsb s' hs' halike⟩

end FiniteState.Table
