import FiniteState.Proofs.Automaton.Renaming
import FiniteState.Proofs.Automaton.Minimise
import FiniteState.Proofs.Text.Primed

/-!
# Names of states

Constructions make states of sets, blocks and pairs of states, and a state has only its name to be
told by. The base forms of the names can be the same for different sets, blocks or pairs, since
the names they are put together from may hold commas, braces, parentheses and primes. Priming keeps
them apart: `Represents` says that a state stands for each set, block or pair, a different one for
each, and that the words which lead to the set, block or pair end in its state.
-/

namespace FiniteState

/-- Lists of one length without repetitions are paired off by position. -/
theorem exists_bijOn_of_nodup {α : Type} {xs : List α} {names : List String} (hxs : xs.Nodup)
    (hnames : names.Nodup) (hlength : xs.length = names.length) :
    ∃ f : α → String, Set.BijOn f {x | x ∈ xs} {n | n ∈ names} ∧
      ∀ (i : Nat) x, xs[i]? = some x → names[i]? = some (f x) := by
  classical
  have hget : ∀ (i : Nat) x, xs[i]? = some x →
      names[i]? = some ((names[xs.idxOf x]?).getD "") := by
    intro i x hx
    obtain ⟨hi, rfl⟩ := List.getElem?_eq_some_iff.1 hx
    rw [hxs.idxOf_getElem, List.getElem?_eq_getElem (hlength ▸ hi), Option.getD_some]
  refine ⟨fun x => (names[xs.idxOf x]?).getD "", ⟨?mapsTo, ?injOn, ?surjOn⟩, hget⟩
  case mapsTo =>
    intro x hx
    obtain ⟨i, hi⟩ := List.getElem?_of_mem hx
    exact List.mem_of_getElem? (hget i x hi)
  case injOn =>
    intro x hx y hy heq
    obtain ⟨i, hi⟩ := List.getElem?_of_mem hx
    obtain ⟨j, hj⟩ := List.getElem?_of_mem hy
    have hi' := hget i x hi
    have hj' := hget j y hj
    have hij : i = j := by
      refine (List.getElem?_inj (List.getElem?_eq_some_iff.1 hi').1 hnames).1 ?_
      rw [hi', hj']
      exact congrArg some heq
    subst hij
    exact Option.some.inj (hi.symm.trans hj)
  case surjOn =>
    intro n hn
    obtain ⟨i, hi⟩ := List.getElem?_of_mem hn
    have hlt : i < xs.length := hlength ▸ (List.getElem?_eq_some_iff.1 hi).1
    refine ⟨xs[i], List.getElem_mem hlt, ?_⟩
    exact Option.some.inj ((hget i _ (List.getElem?_eq_getElem hlt)).symm.trans hi)

/-! ## Names of sets -/

/-- The members in order, separated by commas and put in braces. -/
def IsSetName (members : Set String) (base : String) : Prop :=
  ∃ sorted : List String, sorted.Pairwise (· < ·) ∧ (∀ p, p ∈ sorted ↔ p ∈ members) ∧
    base = "\x7b" ++ String.intercalate "," sorted ++ "\x7d"

theorem pairwise_le_mergeSort (names : List String) :
    (names.mergeSort fun p q => decide (p ≤ q)).Pairwise (· ≤ ·) := by
  have htrans : ∀ p q r : String, decide (p ≤ q) = true → decide (q ≤ r) = true →
      decide (p ≤ r) = true := fun p q r hpq hqr =>
    decide_eq_true (String.le_trans (of_decide_eq_true hpq) (of_decide_eq_true hqr))
  have htotal : ∀ p q : String, (decide (p ≤ q) || decide (q ≤ p)) = true := fun p q => by
    simp [String.le_total p q]
  exact (List.pairwise_mergeSort htrans htotal names).imp of_decide_eq_true

theorem isSetName_setName {members : Set String} {names : List String} (hnames : names.Nodup)
    (hmem : ∀ p, p ∈ names ↔ p ∈ members) : IsSetName members (Moves.setName names) := by
  have hperm := List.mergeSort_perm names fun p q => decide (p ≤ q)
  refine ⟨names.mergeSort fun p q => decide (p ≤ q), ?_,
    fun p => hperm.mem_iff.trans (hmem p), rfl⟩
  refine ((pairwise_le_mergeSort names).and (hperm.nodup_iff.2 hnames)).imp ?_
  exact fun h => Std.lt_of_le_of_ne h.1 h.2

/-! ## States that stand for something -/

namespace Automaton

/-- A state stands for each member of `X`, a different one for each, and there are no other states.
The words that lead to a member of `X` end in its state. -/
structure Represents {α : Type} (b : Automaton) (X : Set α) (leads : List Char → α → Prop)
    (f : α → String) : Prop where
  bijOn : Set.BijOn f X {q | q ∈ b.names}
  endsIn : ∀ w, ∀ x ∈ X, leads w x → b.EndsIn w (some (f x))

end Automaton

namespace Table

open Automaton

variable {α : Type} {t : Table}

/-- Words end in the states to which the table leads. -/
def Tracks (t : Table) : Prop := ∀ w i p, t.run? t.start w = some i → t.names[i]? = some p →
  t.toAutomaton.EndsIn w (some p)

theorem Valid.tracks (ht : t.Valid) : t.Tracks := by
  intro w i p hrun hp
  rw [ht.isComplete_toAutomaton.endsIn_iff, tableOver_toAutomaton ht, hrun]
  exact hp

/-- The states of a table with different names stand for whatever its rows stand for. -/
theorem exists_represents (hnames : t.names.Nodup) (htracks : t.Tracks) {xs : List α}
    (hxs : xs.Nodup) (hlength : xs.length = t.names.length) {leads : List Char → α → Prop}
    (hleads : ∀ w, ∀ x ∈ xs, leads w x → ∃ i, t.run? t.start w = some i ∧ xs[i]? = some x) :
    ∃ f, t.toAutomaton.Represents {x | x ∈ xs} leads f ∧
      ∀ (i : Nat) x, xs[i]? = some x → t.names[i]? = some (f x) := by
  obtain ⟨f, hf, hget⟩ := exists_bijOn_of_nodup hxs hnames hlength
  rw [← names_toAutomaton hnames] at hf
  refine ⟨f, ⟨hf, fun w x hx hw => ?_⟩, hget⟩
  obtain ⟨i, hrun, hi⟩ := hleads w x hx hw
  exact htracks w i (f x) hrun (hget i x hi)

end Table

namespace Machine

variable {α β : Type} [DecidableEq α] {m : Machine α} {S : Alphabet} {bound : Nat}

theorem nodup_names_table (m : Machine α) (S : Alphabet) (bound : Nat) :
    (m.table S bound).names.Nodup := by
  rw [names_table]
  exact Text.nodup_distinct _ _

theorem isPrimed_of_getElem?_names {i : Nat} {q : α} {name : String}
    (hq : (m.found S bound)[i]? = some q) (hname : (m.table S bound).names[i]? = some name) :
    Text.IsPrimed (m.name q) name := by
  rw [names_table, namesOf] at hname
  refine Text.isPrimed_of_getElem?_distinct ?_ hname
  rw [List.getElem?_map, hq]
  rfl

/-- The states of the table of a machine stand for the states of the machine to which words lead,
told apart by `φ`, and have their names with primes. -/
theorem exists_represents (h : m.Within S bound) (htracks : (m.table S bound).Tracks)
    (hrun : ∀ w, (∀ c ∈ w, c ∈ S) →
      ∃ i, (m.table S bound).run? (m.table S bound).start w = some i)
    {φ : α → β} (hφ : Set.InjOn φ (m.run '' {w | ∀ c ∈ w, c ∈ S})) :
    ∃ f, (m.table S bound).toAutomaton.Represents
        (φ '' (m.run '' {w | ∀ c ∈ w, c ∈ S}))
        (fun w x => (∀ c ∈ w, c ∈ S) ∧ φ (m.run w) = x) f ∧
      ∀ w, (∀ c ∈ w, c ∈ S) → Text.IsPrimed (m.name (m.run w)) (f (φ (m.run w))) := by
  have hfound : ∀ q, q ∈ m.found S bound ↔ q ∈ m.run '' {w | ∀ c ∈ w, c ∈ S} := mem_found_iff h
  have hget : ∀ w, (∀ c ∈ w, c ∈ S) → ∃ i,
      (m.table S bound).run? (m.table S bound).start w = some i ∧
      (m.found S bound)[i]? = some (m.run w) := by
    intro w hw
    obtain ⟨i, hi⟩ := hrun w hw
    exact ⟨i, hi, getElem?_of_run? h (getElem?_start m S bound) hi⟩
  have hmap : ∀ {i q}, (m.found S bound)[i]? = some q →
      ((m.found S bound).map φ)[i]? = some (φ q) := fun hq => by
    rw [List.getElem?_map, hq]
    rfl
  have hnodup : ((m.found S bound).map φ).Nodup :=
    (nodup_found h).map_on fun q hq q' hq' => hφ ((hfound q).1 hq) ((hfound q').1 hq')
  have hlength : ((m.found S bound).map φ).length = (m.table S bound).names.length := by
    rw [List.length_map, names_table, length_namesOf]
  have hleads : ∀ w, ∀ x ∈ (m.found S bound).map φ, ((∀ c ∈ w, c ∈ S) ∧ φ (m.run w) = x) →
      ∃ i, (m.table S bound).run? (m.table S bound).start w = some i ∧
        ((m.found S bound).map φ)[i]? = some x := by
    rintro w _ - ⟨hw, rfl⟩
    obtain ⟨i, hi, hq⟩ := hget w hw
    exact ⟨i, hi, hmap hq⟩
  obtain ⟨f, hf, hname⟩ := Table.exists_represents (m.nodup_names_table S bound) htracks
    hnodup hlength hleads
  have himage : {x | x ∈ (m.found S bound).map φ} = φ '' (m.run '' {w | ∀ c ∈ w, c ∈ S}) := by
    ext x
    exact List.mem_map.trans (exists_congr fun q => and_congr_left fun _ => hfound q)
  refine ⟨f, himage ▸ hf, fun w hw => ?_⟩
  obtain ⟨i, -, hq⟩ := hget w hw
  exact isPrimed_of_getElem?_names hq (hname i _ (hmap hq))

end Machine

namespace Automaton

variable {a b : Automaton} {S T : Alphabet}

/-! ## Sets of states -/

/-- The states in which the word can end. -/
def setAfter (a : Automaton) (w : List Char) : Set String := {q | a.EndsIn w (some q)}

/-- The names of the members of a set of numbered states. -/
def namesIn (a : Automaton) (s : StateSet) : Set String :=
  {q | ∃ i, a.names[i]? = some q ∧ s.contains i = true}

theorem namesIn_run_machine (a : Automaton) (w : List Char) :
    a.namesIn (a.machine.run w) = a.setAfter w := by
  have hcontains : ∀ {i q}, a.names[i]? = some q →
      ((a.machine.run w).contains i = true ↔ a.EndsIn w (some q)) := by
    intro i q hq
    rw [contains_run_machine_iff, hq]
    simp only [Option.some.injEq, exists_eq_left']
  ext q
  constructor
  · rintro ⟨i, hq, hi⟩
    exact (hcontains hq).1 hi
  · intro hends
    obtain ⟨p, hp, hw⟩ := hends
    obtain ⟨i, hq⟩ := List.getElem?_of_mem (hw.mem_names (mem_names_of_mem_starts hp))
    exact ⟨i, hq, (hcontains hq).2 ⟨p, hp, hw⟩⟩

/-- Sets with the same names in them are one set. -/
theorem injOn_namesIn (a : Automaton) : Set.InjOn a.namesIn (Set.range a.machine.run) := by
  rintro _ ⟨v, rfl⟩ _ ⟨w, rfl⟩ heq
  rw [namesIn_run_machine, namesIn_run_machine] at heq
  refine StateSet.ext_contains fun i => Bool.eq_iff_iff.2 ?_
  rw [contains_run_machine_iff, contains_run_machine_iff]
  exact exists_congr fun q => and_congr_right fun _ => Set.ext_iff.1 heq q

theorem isSetName_name_machine (a : Automaton) (s : StateSet) :
    IsSetName (a.namesIn s) (a.machine.name s) := by
  refine isSetName_setName ?_ fun q => ?_
  · refine (List.nodup_range.filter _).filterMap ?_
    intro i j q hi hj
    exact names_getElem?_inj hi hj
  · refine List.mem_filterMap.trans (exists_congr fun i => ?_)
    rw [StateSet.mem_below, and_comm]
    refine and_congr_right fun hq => and_iff_right ?_
    exact (List.getElem?_eq_some_iff.1 hq).1

/-- Without symbols only the empty word leads somewhere. -/
theorem run?_eq_some_of_symbols_eq_nil {t : Table} (h : t.alphabet.symbols = []) {w : List Char}
    {i j : Nat} (hrun : t.run? i w = some j) : w = [] := by
  cases w with
  | nil => rfl
  | cons c w =>
      rw [Table.run?_cons, Table.step?, h] at hrun
      cases hrun

theorem names_determinise (a : Automaton) : a.determinise.names = a.subsetTable.names :=
  Table.names_toAutomaton (Machine.nodup_names_table a.machine _ _)

theorem tracks_subsetTable (a : Automaton) : a.subsetTable.Tracks := by
  by_cases h : a.subsetTable.alphabet.symbols = []
  · intro w i p hrun hp
    obtain rfl := run?_eq_some_of_symbols_eq_nil h hrun
    obtain ⟨s, hs, heq⟩ := determinise_eq h
    have hmem := List.mem_of_getElem? hp
    change a.determinise.EndsIn [] (some p)
    rw [← names_determinise, heq] at hmem
    rw [heq]
    obtain rfl := List.mem_singleton.1 hmem
    refine ⟨s.name, List.mem_map_of_mem (List.mem_filter.2 ⟨?_, hs⟩), .nil _⟩
    exact List.mem_singleton_self s
  · exact (valid_subsetTable h).tracks

theorem exists_run?_subsetTable (a : Automaton) {w : List Char}
    (hw : ∀ c ∈ w, c ∈ a.subsetTable.alphabet) :
    ∃ i, a.subsetTable.run? a.subsetTable.start w = some i := by
  by_cases h : a.subsetTable.alphabet.symbols = []
  · obtain rfl : w = [] := by
      refine List.eq_nil_iff_forall_not_mem.2 fun c hc => ?_
      have hmem : c ∈ a.subsetTable.alphabet.symbols := hw c hc
      rw [h] at hmem
      cases hmem
    exact ⟨_, rfl⟩
  · exact ((valid_subsetTable h).exists_run?_iff w).2 hw

/-- The subset construction has one state for each set of states after a word. -/
theorem exists_represents_determinise (a : Automaton) :
    ∃ f, a.determinise.Represents {s | ∃ w, (∀ c ∈ w, a.Carries c) ∧ a.setAfter w = s}
        (fun w s => (∀ c ∈ w, a.Carries c) ∧ a.setAfter w = s) f ∧
      ∀ w, (∀ c ∈ w, a.Carries c) →
        ∃ base, IsSetName (a.setAfter w) base ∧ Text.IsPrimed base (f (a.setAfter w)) := by
  have hinj : Set.InjOn a.namesIn (a.machine.run '' {w | ∀ c ∈ w, c ∈ a.subsetTable.alphabet}) :=
    a.injOn_namesIn.mono (Set.image_subset_range _ _)
  obtain ⟨f, hf, hname⟩ := Machine.exists_represents (a.within_machine _) a.tracks_subsetTable
    (fun w => a.exists_run?_subsetTable) hinj
  rw [Set.image_image] at hf
  have hcarries : ∀ c, c ∈ (Moves.ofAutomaton a).alphabet ↔ a.Carries c :=
    mem_alphabet_subsetTable a
  simp only [namesIn_run_machine, hcarries] at hf hname
  refine ⟨f, hf, fun w hw => ⟨_, ?_, hname w hw⟩⟩
  rw [← namesIn_run_machine]
  exact a.isSetName_name_machine _

end Automaton

/-! ## Blocks -/

namespace Table

variable {t : Table}

/-- A state that is alone in its block keeps its name, and a larger block is named after its
members. -/
theorem getElem?_blockNames {taken : List String} {blocks : List Block} {i : Nat} {b : Block}
    {name : String} (hb : blocks[i]? = some b)
    (hname : (t.blockNames taken blocks)[i]? = some name) :
    (∀ s, b = [s] → name = t.name s) ∧
      ((∀ s, b ≠ [s]) → Text.IsPrimed (Moves.setName (b.map t.name)) name) := by
  induction blocks generalizing taken i with
  | nil => cases hb
  | cons b' blocks ih =>
      by_cases hsingle : ∃ s, b' = [s]
      · obtain ⟨s, rfl⟩ := hsingle
        rw [blockNames] at hname
        cases i with
        | succ i => exact ih hb hname
        | zero =>
            obtain rfl := Option.some.inj hb
            obtain rfl := Option.some.inj hname
            refine ⟨fun s' hs' => ?_, fun hne => absurd rfl (hne s)⟩
            rw [List.singleton_inj.1 hs']
      · have hne := not_exists.1 hsingle
        rw [blockNames_cons_of_ne hne] at hname
        cases i with
        | succ i => exact ih hb hname
        | zero =>
            obtain rfl := Option.some.inj hb
            obtain rfl := Option.some.inj hname
            exact ⟨fun s hs => absurd hs (hne s), fun _ => Text.isPrimed_primed _ _⟩

/-- The names of the states in a block. -/
def namesOfBlock (t : Table) (b : Block) : Set String := {p | ∃ s ∈ b, t.name s = p}

section Blocks

variable (ht : t.Valid)

include ht

theorem leadsTo_of_mem_blocks {b : Block} (hb : b ∈ t.blocks) {s : Nat} (hs : s ∈ b) :
    t.LeadsTo s :=
  ((partition_blocks ht.toWellFormed).mem_iff s).1 (List.mem_flatten.2 ⟨b, hb, hs⟩)

theorem name_mem_namesOfBlock_iff {b : Block} (hb : b ∈ t.blocks) {s : Nat} (hs : t.LeadsTo s) :
    t.name s ∈ t.namesOfBlock b ↔ s ∈ b := by
  constructor
  · rintro ⟨s', hs', heq⟩
    have hlt := ht.lt_of_leadsTo (leadsTo_of_mem_blocks ht hb hs')
    exact ht.name_inj hlt (ht.lt_of_leadsTo hs) heq ▸ hs'
  · exact fun hmem => ⟨s, hmem, rfl⟩

/-- Different blocks have no name in common. -/
theorem nodup_map_namesOfBlock : (t.blocks.map t.namesOfBlock).Nodup := by
  have h := partition_blocks ht.toWellFormed
  refine List.pairwise_map.2 ((List.nodup_flatten.1 h.nodup).2.imp_of_mem ?_)
  intro b b' hb hb' hdisjoint heq
  obtain ⟨s, hs⟩ := List.exists_mem_of_ne_nil _ (h.ne_nil b hb)
  have hleads := leadsTo_of_mem_blocks ht hb hs
  have hs' : s ∈ b' := by
    rw [← name_mem_namesOfBlock_iff ht hb' hleads, ← heq, name_mem_namesOfBlock_iff ht hb hleads]
    exact hs
  exact hdisjoint hs hs'

/-- A minimal table has one state for each block. -/
theorem exists_represents_minimise :
    ∃ f, t.minimise.toAutomaton.Represents {s | ∃ b ∈ t.blocks, t.namesOfBlock b = s}
        (fun w s => ∃ j, t.run? t.start w = some j ∧ t.name j ∈ s) f ∧
      ∀ b ∈ t.blocks, (∀ s, b = [s] → f (t.namesOfBlock b) = t.name s) ∧
        ((∀ s, b ≠ [s]) →
          Text.IsPrimed (Moves.setName (b.map t.name)) (f (t.namesOfBlock b))) := by
  have h := partition_blocks ht.toWellFormed
  have htm := ht.minimise
  have hmap : ∀ {i : Nat} {b}, t.blocks[i]? = some b →
      (t.blocks.map t.namesOfBlock)[i]? = some (t.namesOfBlock b) := fun hb => by
    rw [List.getElem?_map, hb]
    rfl
  have hlength : (t.blocks.map t.namesOfBlock).length = t.minimise.names.length := by
    rw [List.length_map, names_minimise, length_blockNames]
  have hleads : ∀ w, ∀ s ∈ t.blocks.map t.namesOfBlock,
      (∃ j, t.run? t.start w = some j ∧ t.name j ∈ s) →
      ∃ i, t.minimise.run? t.minimise.start w = some i ∧
        (t.blocks.map t.namesOfBlock)[i]? = some s := by
    rintro w s hs ⟨j, hj, hmem⟩
    obtain ⟨b, hb, rfl⟩ := List.mem_map.1 hs
    obtain ⟨i, hi⟩ := List.getElem?_of_mem hb
    have hjb := (name_mem_namesOfBlock_iff ht hb ⟨w, hj⟩).1 hmem
    have hrun := run?_minimise ht.toWellFormed t.leadsTo_start w
    rw [hj, Option.map_some, blockOf_eq h.nodup hi hjb] at hrun
    exact ⟨i, hrun, hmap hi⟩
  obtain ⟨f, hf, hname⟩ := exists_represents htm.names_nodup htm.tracks
    (nodup_map_namesOfBlock ht) hlength hleads
  have himage : {s | s ∈ t.blocks.map t.namesOfBlock} =
      {s | ∃ b ∈ t.blocks, t.namesOfBlock b = s} := by
    ext s
    exact List.mem_map
  refine ⟨f, himage ▸ hf, fun b hb => ?_⟩
  obtain ⟨i, hi⟩ := List.getElem?_of_mem hb
  have hget := hname i _ (hmap hi)
  rw [names_minimise] at hget
  exact getElem?_blockNames hi hget

/-- A block is a single state exactly if there is one name in it. -/
theorem namesOfBlock_eq_singleton_iff {b : Block} (hb : b ∈ t.blocks) (p : String) :
    t.namesOfBlock b = {p} ↔ ∃ s, b = [s] ∧ t.name s = p := by
  have h := partition_blocks ht.toWellFormed
  constructor
  · intro heq
    have hall : ∀ s ∈ b, t.name s = p := fun s hs => by
      have hmem : t.name s ∈ t.namesOfBlock b := ⟨s, hs, rfl⟩
      rwa [heq] at hmem
    match b, h.ne_nil b hb, hb, hall with
    | [s], _, _, hall => exact ⟨s, rfl, hall s List.mem_cons_self⟩
    | s :: s' :: b, _, hb, hall =>
        have hs' : s' ∈ s :: s' :: b := List.mem_cons_of_mem _ List.mem_cons_self
        have hlt : ∀ {r}, r ∈ s :: s' :: b → r < t.size := fun hr =>
          ht.lt_of_leadsTo (leadsTo_of_mem_blocks ht hb hr)
        have hss' := ht.name_inj (hlt List.mem_cons_self) (hlt hs')
          ((hall s List.mem_cons_self).trans (hall s' hs').symm)
        have hnodup := (List.nodup_flatten.1 h.nodup).1 _ hb
        exact absurd (hss' ▸ List.mem_cons_self) (List.nodup_cons.1 hnodup).1
  · rintro ⟨s, rfl, rfl⟩
    ext p
    simp [namesOfBlock, eq_comm]

theorem isSetName_of_mem_blocks {b : Block} (hb : b ∈ t.blocks) :
    IsSetName (t.namesOfBlock b) (Moves.setName (b.map t.name)) := by
  refine isSetName_setName ?_ fun p => List.mem_map
  refine ((List.nodup_flatten.1 (partition_blocks ht.toWellFormed).nodup).1 b hb).map_on ?_
  intro s hs s' hs' heq
  exact ht.name_inj (ht.lt_of_leadsTo (leadsTo_of_mem_blocks ht hb hs))
    (ht.lt_of_leadsTo (leadsTo_of_mem_blocks ht hb hs')) heq

end Blocks

/-! ## Sinks -/

section Sinks

variable (t : Table) (S : Alphabet)

/-- A sink is added if symbols are missing, under a name that no state has. -/
theorem names_completeOver_cases :
    ((∀ c ∈ S, c ∈ t.alphabet) ∧ (t.completeOver S).names = t.names) ∨
      ((∃ c ∈ S, ¬ c ∈ t.alphabet) ∧ ∃ sink, Text.IsPrimed sinkName sink ∧ ¬ sink ∈ t.names ∧
        (t.completeOver S).names = t.names ++ [sink]) := by
  rw [names_completeOver, sinkRows]
  by_cases h : (S.without t.alphabet).isEmpty = true
  · refine .inl ⟨(Automaton.without_isEmpty_iff S _).1 h, ?_⟩
    rw [if_pos h, List.map_nil, List.append_nil]
  · rw [if_neg h]
    rw [Automaton.without_isEmpty_iff] at h
    refine .inr ⟨by simpa using h, _, Text.isPrimed_primed t.names sinkName,
      Text.primed_not_mem _ _, rfl⟩

variable {t S}

theorem name_completeOver {i : Nat} (hi : i < (t.completeOver S).size) :
    (t.completeOver S).name i = (t.names[i]?).getD (Text.primed t.names sinkName) := by
  have hget := getElem?_names_of_lt hi
  rw [names_completeOver] at hget
  by_cases hlt : i < t.names.length
  · rw [List.getElem?_append_left hlt] at hget
    rw [hget, Option.getD_some]
  · have hle := Nat.not_lt.1 hlt
    rw [List.getElem?_append_right hle] at hget
    rw [List.getElem?_eq_none hle, Option.getD_none]
    obtain ⟨row, hrow, hname⟩ := List.mem_map.1 (List.mem_of_getElem? hget)
    rw [← hname, (mem_sinkRows hrow).2]

/-- The name of the state, or the sink, in which a completed table ends. -/
theorem name_run?_completeOver (ht : t.WellFormed) (hS : ∀ c ∈ t.alphabet, c ∈ S)
    {w : List Char} (hw : ∀ c ∈ w, c ∈ S) :
    (t.completeOver S).name ((t.run? t.start w).getD t.size) =
      (t.names[(t.run? t.start w).getD t.size]?).getD (Text.primed t.names sinkName) :=
  name_completeOver (getD_run?_lt ht hS hw)

end Sinks

end Table

namespace Automaton

variable {a b : Automaton} {S T : Alphabet}

/-- The blocks that are left when no block can be split any more, by the names of their states. -/
def finalBlocks (a : Automaton) (S : Alphabet) : Set (Set String) :=
  {s | ∃ b ∈ (a.tableOver S).blocks, (a.tableOver S).namesOfBlock b = s}

namespace IsComplete

section

variable (h : a.IsComplete S)

include h

theorem endsIn_some_iff (w : List Char) (q : String) : a.EndsIn w (some q) ↔
    ∃ j, (a.tableOver S).run? (a.tableOver S).start w = some j ∧ (a.tableOver S).name j = q := by
  simp only [EndsIn, h.stateNames_starts, List.mem_singleton, exists_eq_left,
    h.path_iff_exists_run? h.valid_tableOver.start_lt]

/-- The states that words lead to and that accept the same words make up a block. -/
theorem finalBlocks_eq : a.finalBlocks S = {s | ∃ p, a.LeadsTo p ∧
    s = {q | a.LeadsTo q ∧ ∀ w, w ∈ a.languageFrom p ↔ w ∈ a.languageFrom q}} := by
  have ht := h.valid_tableOver
  have hpartition := Table.partition_blocks ht.toWellFormed
  have hname : ∀ {i}, (a.tableOver S).LeadsTo i → a.LeadsTo ((a.tableOver S).name i) :=
    fun hi => h.bijOn_name.mapsTo hi
  have halike : ∀ {i j}, (a.tableOver S).LeadsTo i → (a.tableOver S).LeadsTo j →
      ((∀ w, w ∈ a.languageFrom ((a.tableOver S).name i) ↔
        w ∈ a.languageFrom ((a.tableOver S).name j)) ↔ (a.tableOver S).Alike i j) := by
    intro i j hi hj
    have hi := ht.lt_of_leadsTo hi
    have hj := ht.lt_of_leadsTo hj
    simp only [h.mem_languageFrom_iff (getElem?_names_tableOver hi),
      h.mem_languageFrom_iff (getElem?_names_tableOver hj)]
    refine ⟨ht.alike_of_accept_iff hi hj, fun halike w => ?_⟩
    rw [halike w]
  -- a block is found again from any of its states
  have hblock : ∀ {b i}, b ∈ (a.tableOver S).blocks → i ∈ b → (a.tableOver S).namesOfBlock b =
      {q | a.LeadsTo q ∧ ∀ w, w ∈ a.languageFrom ((a.tableOver S).name i) ↔
        w ∈ a.languageFrom q} := by
    intro b i hb hi
    have hleads := Table.leadsTo_of_mem_blocks ht hb hi
    ext q
    constructor
    · rintro ⟨j, hj, rfl⟩
      have hleads' := Table.leadsTo_of_mem_blocks ht hb hj
      exact ⟨hname hleads', (halike hleads hleads').2
        (Table.alike_of_mem_blocks ht.toWellFormed hb hi hj)⟩
    · rintro ⟨hq, hsame⟩
      obtain ⟨j, hj, rfl⟩ := h.bijOn_name.surjOn hq
      exact ⟨j, hpartition.alike_mem b hb i hi j hj ((halike hleads hj).1 hsame), rfl⟩
  ext s
  constructor
  · rintro ⟨b, hb, rfl⟩
    obtain ⟨i, hi⟩ := List.exists_mem_of_ne_nil _ (hpartition.ne_nil b hb)
    exact ⟨_, hname (Table.leadsTo_of_mem_blocks ht hb hi), hblock hb hi⟩
  · rintro ⟨p, hp, rfl⟩
    obtain ⟨i, hi, rfl⟩ := h.bijOn_name.surjOn hp
    obtain ⟨b, hb, hib⟩ := List.mem_flatten.1 ((hpartition.mem_iff i).2 hi)
    exact ⟨b, hb, hblock hb hib⟩

/-- Minimising gives one state for each block. -/
theorem exists_represents_minimise : ∃ m f, a.minimise = .ok m ∧
    m.Represents (a.finalBlocks S) (fun w s => ∃ q ∈ s, a.EndsIn w (some q)) f ∧
    ∀ s ∈ a.finalBlocks S, (∀ p, s = {p} → f s = p) ∧
      ((∀ p, s ≠ {p}) → ∃ base, IsSetName s base ∧ Text.IsPrimed base (f s)) := by
  have ht := h.valid_tableOver
  obtain ⟨f, hf, hname⟩ := Table.exists_represents_minimise ht
  refine ⟨_, f, h.minimise_eq, ⟨hf.bijOn, ?_⟩, ?_⟩
  · rintro w s hs ⟨q, hq, hends⟩
    obtain ⟨j, hj, rfl⟩ := (h.endsIn_some_iff w q).1 hends
    exact hf.endsIn w s hs ⟨j, hj, hq⟩
  · rintro _ ⟨b, hb, rfl⟩
    have hsingle := Table.namesOfBlock_eq_singleton_iff ht hb
    constructor
    · intro p hp
      obtain ⟨s, hs, rfl⟩ := (hsingle p).1 hp
      exact (hname b hb).1 s hs
    · intro hne
      refine ⟨_, Table.isSetName_of_mem_blocks ht hb, (hname b hb).2 fun s hs => ?_⟩
      exact hne _ ((hsingle _).2 ⟨s, hs, rfl⟩)

end

/-! ## Pairs -/

/-- Combining gives one state for each pair of states, or sinks, in which a word ends. -/
theorem exists_represents_combine (ha : a.IsComplete S) (hb : b.IsComplete T)
    (accept : Bool → Bool → Bool) : ∃ c f, a.combine b accept = .ok c ∧
    c.Represents (a.ReachedPairs b (S.union T))
      (fun w x => (∀ c ∈ w, c ∈ S.union T) ∧ a.EndsIn w x.1 ∧ b.EndsIn w x.2) f ∧
    ∀ x ∈ a.ReachedPairs b (S.union T), Text.IsPrimed
      ("(" ++ x.1.getD (Text.primed a.names Table.sinkName) ++ "," ++
        x.2.getD (Text.primed b.names Table.sinkName) ++ ")") (f x) := by
  have hl := ha.valid_tableOver
  have hr := hb.valid_tableOver
  have ht := hl.product accept hr
  obtain ⟨f, hf, hname⟩ := Machine.exists_represents
    (Table.within_productMachine accept hl.toWellFormed hr.toWellFormed) ht.tracks
    (fun w => (ht.exists_run?_iff w).2) (ha.injOn_names hb accept)
  have hpair : ∀ {w x}, (∀ c ∈ w, c ∈ S.union T) → a.EndsIn w x.1 → b.EndsIn w x.2 →
      Prod.map (fun i => (a.tableOver S).names[i]?) (fun j => (b.tableOver T).names[j]?)
        (((a.tableOver S).productMachine (b.tableOver T) accept).run w) = x := by
    intro w x hw hleft hright
    rw [Table.run_productMachine accept hl.toWellFormed hr.toWellFormed hw]
    exact Prod.ext ((ha.endsIn_iff w x.1).1 hleft) ((hb.endsIn_iff w x.2).1 hright)
  refine ⟨_, f, ha.combine_eq hb accept, ⟨?_, ?_⟩, ?_⟩
  · rw [ha.reachedPairs_eq hb accept]
    exact hf.bijOn
  · rintro w x hx ⟨hw, hleft, hright⟩
    rw [ha.reachedPairs_eq hb accept] at hx
    exact hf.endsIn w x hx ⟨hw, hpair hw hleft hright⟩
  · rintro x ⟨w, hw, hleft, hright⟩
    have hprimed := hname w hw
    rw [hpair hw hleft hright] at hprimed
    have hleft := (ha.endsIn_iff w x.1).1 hleft
    have hright := (hb.endsIn_iff w x.2).1 hright
    have hnameLeft := Table.name_run?_completeOver hl.toWellFormed
      (fun c hc => (Alphabet.mem_union S T c).2 (.inr hc)) hw
    have hnameRight := Table.name_run?_completeOver hr.toWellFormed
      (fun c hc => (Alphabet.mem_union S T c).2 (.inl hc)) hw
    rw [hleft, names_tableOver] at hnameLeft
    rw [hright, names_tableOver] at hnameRight
    rw [← hnameLeft, ← hnameRight]
    rw [Table.run_productMachine accept hl.toWellFormed hr.toWellFormed hw] at hprimed
    exact hprimed

end IsComplete

/-- Names merge and lose no states, whatever the names are. The subset construction has one state
for each set of states after a word over the symbols between existing states, minimising gives one
for each final block, and combining gives one for each pair in which a word ends. The name of the
state is the base form with primes: the members in order between braces, or the names of both sides
of the pair. A block of one state keeps the name of the state. A sink never takes the name of a
state. Primes are put after a name only while it is taken, and no more of them than there are taken
names. -/
theorem naming_correct :
    (∀ taken name, ∃ k ≤ taken.length, Text.primed taken name = Text.withPrimes name k ∧
      ¬ Text.withPrimes name k ∈ taken ∧ ∀ j < k, Text.withPrimes name j ∈ taken) ∧
    (∀ (t : Table) (S : Alphabet),
      ((∀ c ∈ S, c ∈ t.alphabet) ∧ (t.completeOver S).names = t.names) ∨
        ((∃ c ∈ S, ¬ c ∈ t.alphabet) ∧ ∃ sink, Text.IsPrimed Table.sinkName sink ∧
          ¬ sink ∈ t.names ∧ (t.completeOver S).names = t.names ++ [sink])) ∧
    (∀ a : Automaton, ∃ f,
      a.determinise.Represents {s | ∃ w, (∀ c ∈ w, a.Carries c) ∧ a.setAfter w = s}
        (fun w s => (∀ c ∈ w, a.Carries c) ∧ a.setAfter w = s) f ∧
      ∀ w, (∀ c ∈ w, a.Carries c) →
        ∃ base, IsSetName (a.setAfter w) base ∧ Text.IsPrimed base (f (a.setAfter w))) ∧
    (∀ (a : Automaton) (S : Alphabet), a.validate none = .ok S →
      (a.finalBlocks S = {s | ∃ p, a.LeadsTo p ∧
        s = {q | a.LeadsTo q ∧ ∀ w, w ∈ a.languageFrom p ↔ w ∈ a.languageFrom q}}) ∧
      ∃ m f, a.minimise = .ok m ∧
        m.Represents (a.finalBlocks S) (fun w s => ∃ q ∈ s, a.EndsIn w (some q)) f ∧
        ∀ s ∈ a.finalBlocks S, (∀ p, s = {p} → f s = p) ∧
          ((∀ p, s ≠ {p}) → ∃ base, IsSetName s base ∧ Text.IsPrimed base (f s))) ∧
    ∀ (a b : Automaton) (S T : Alphabet) (accept : Bool → Bool → Bool),
      a.validate none = .ok S → b.validate none = .ok T →
      ∃ c f, a.combine b accept = .ok c ∧
        c.Represents (a.ReachedPairs b (S.union T))
          (fun w x => (∀ c ∈ w, c ∈ S.union T) ∧ a.EndsIn w x.1 ∧ b.EndsIn w x.2) f ∧
        ∀ x ∈ a.ReachedPairs b (S.union T), Text.IsPrimed
          ("(" ++ x.1.getD (Text.primed a.names Table.sinkName) ++ "," ++
            x.2.getD (Text.primed b.names Table.sinkName) ++ ")") (f x) := by
  refine ⟨Text.exists_primed_eq_withPrimes, Table.names_completeOver_cases,
    exists_represents_determinise, fun a S h => ?_, fun a b S T accept ha hb => ?_⟩
  · have ha := (validate_none_eq_ok_iff a S).1 h
    exact ⟨ha.finalBlocks_eq, ha.exists_represents_minimise⟩
  · exact ((validate_none_eq_ok_iff a S).1 ha).exists_represents_combine
      ((validate_none_eq_ok_iff b T).1 hb) accept

/-- The first two states make up a block, and the third has the name that the block would get. -/
def bracedBlock : Automaton :=
  ofLists [⟨"A", true, false, none⟩, ⟨"B", false, false, none⟩, ⟨"\x7bA,B\x7d", false, true, none⟩]
    [⟨"A", "B", ⟨["a"]⟩⟩, ⟨"B", "\x7bA,B\x7d", ⟨["b"]⟩⟩, ⟨"A", "\x7bA,B\x7d", ⟨["b"]⟩⟩,
      ⟨"B", "A", ⟨["a"]⟩⟩, ⟨"\x7bA,B\x7d", "\x7bA,B\x7d", ⟨["a", "b"]⟩⟩]

/-- A cycle of two states. -/
def cycleOf (start other : String) : Automaton :=
  ofLists [⟨start, true, true, none⟩, ⟨other, false, false, none⟩]
    [⟨start, other, ⟨["a"]⟩⟩, ⟨other, start, ⟨["a"]⟩⟩]

/-- The single state keeps its name, so the block gets a prime. The second pair gets one, too. -/
theorem naming_correct_clashes :
    bracedBlock.validate none = .ok (.ofList ['a', 'b']) ∧
    (∃ m f, bracedBlock.minimise = .ok m ∧ f {"\x7bA,B\x7d"} = "\x7bA,B\x7d" ∧
      Set.BijOn f (bracedBlock.finalBlocks (.ofList ['a', 'b'])) {q | q ∈ m.names}) ∧
    ∃ c f, (cycleOf "p" "p,q").combine (cycleOf "q,r" "r") BoolOp.and.apply = .ok c ∧
      c.names = ["(p,q,r)", "(p,q,r)'"] ∧
      Set.BijOn f ((cycleOf "p" "p,q").ReachedPairs (cycleOf "q,r" "r") (.ofList ['a']))
        {q | q ∈ c.names} := by
  have hvalid : bracedBlock.validate none = .ok (.ofList ['a', 'b']) := by decide +kernel
  have hleft : (cycleOf "p" "p,q").validate none = .ok (.ofList ['a']) := by decide +kernel
  have hright : (cycleOf "q,r" "r").validate none = .ok (.ofList ['a']) := by decide +kernel
  have hsingle : [2] ∈ (bracedBlock.tableOver (.ofList ['a', 'b'])).blocks ∧
      (bracedBlock.tableOver (.ofList ['a', 'b'])).name 2 = "\x7bA,B\x7d" := by
    decide +kernel
  have hpairs : ((cycleOf "p" "p,q").combine (cycleOf "q,r" "r") BoolOp.and.apply).map names =
      .ok ["(p,q,r)", "(p,q,r)'"] := by
    decide +kernel
  obtain ⟨-, -, -, hminimise, hcombine⟩ := naming_correct
  obtain ⟨-, m, f, hm, hf, hname⟩ := hminimise _ _ hvalid
  obtain ⟨c, g, hc, hg, -⟩ := hcombine _ _ _ _ BoolOp.and.apply hleft hright
  refine ⟨hvalid, ⟨m, f, hm, (hname _ ⟨_, hsingle.1, ?_⟩).1 _ rfl, hf.bijOn⟩, c, g, hc, ?_,
    hg.bijOn⟩
  · ext p
    simp [Table.namesOfBlock, hsingle.2, eq_comm]
  · rw [hc] at hpairs
    exact Except.ok.inj hpairs

end Automaton

end FiniteState
