import FiniteState.Proofs.Net.Edges

/-!
# Fragments

`Realises n m f L` says that the net `m` is the net `n` with the fragment `f` added to it,
and that the words that lead through `f` are those of `L`. The fragment has a part of the
net for itself: no edge joins a state of `n` with a new state, so what leads through a
fragment does not change when other fragments are added before or after it.

Nothing is said of edges into the entry of a fragment or out of its exit. A repetition may
have such edges, and where they would do harm the construction looks for them itself:
`Realises.star` is the place where it matters.
-/

namespace FiniteState

namespace Net

open scoped Computability

/-- Every edge joins states of the net. -/
def Bounded (n : Net) : Prop := ∀ i v j, n.Edge i v j → i < n.size ∧ j < n.size

theorem bounded_empty : Net.empty.Bounded := by
  rintro i v j ⟨arc, harc, -⟩
  cases harc

/-- `Extends n m` says that `m` is `n` with more states, and that the edges it has more
join new states only. -/
structure Extends (n m : Net) : Prop where
  size_le : n.size ≤ m.size
  old : ∀ i v j, n.Edge i v j → m.Edge i v j
  new : ∀ i v j, m.Edge i v j → n.Edge i v j ∨ (n.size ≤ i ∧ n.size ≤ j)

namespace Extends

variable {n m k : Net}

theorem rfl (n : Net) : n.Extends n :=
  ⟨Nat.le_refl _, fun _ _ _ h => h, fun _ _ _ h => .inl h⟩

theorem trans (h : n.Extends m) (h' : m.Extends k) : n.Extends k := by
  refine ⟨h.size_le.trans h'.size_le, fun i v j he => h'.old i v j (h.old i v j he), ?_⟩
  intro i v j he
  have hle := h.size_le
  rcases h'.new i v j he with he | ⟨hi, hj⟩
  · exact h.new i v j he
  · exact .inr ⟨by omega, by omega⟩

/-- The edges from an old state are the old ones. -/
theorem edge_iff (h : n.Extends m) {i : Nat} (hi : i < n.size) (v : List Char) (j : Nat) :
    m.Edge i v j ↔ n.Edge i v j := by
  constructor
  · intro he
    rcases h.new i v j he with he | ⟨hge, -⟩
    · exact he
    · omega
  · exact h.old i v j

/-- Walks from an old state are the old ones. -/
theorem leads_iff (h : n.Extends m) (hn : n.Bounded) {i : Nat} (hi : i < n.size)
    (w : List Char) (j : Nat) : Leads m.Edge i w j ↔ Leads n.Edge i w j := by
  refine Leads.iff_of_confined (P := fun i => i < n.size) ?_ ?_ hi
  · intro i v j hi
    exact h.edge_iff hi v j
  · intro i v j hi he
    exact (hn i v j ((h.edge_iff hi v j).1 he)).2

theorem addFragment (n : Net) : n.Extends n.addFragment.2 :=
  ⟨Nat.le_add_right _ _, fun _ _ _ h => h, fun _ _ _ h => .inl h⟩

/-- Silent edges between new states may be added. -/
theorem addSilent (h : n.Extends m) {s t : Nat} (hs : n.size ≤ s) (ht : n.size ≤ t) :
    n.Extends (m.addSilent s t) := by
  refine ⟨h.size_le, fun i v j he => ?_, fun i v j he => ?_⟩
  · exact (edge_addSilent m s t i v j).2 (.inl (h.old i v j he))
  · rcases (edge_addSilent m s t i v j).1 he with he | ⟨rfl, -, rfl⟩
    · exact h.new i v j he
    · exact .inr ⟨hs, ht⟩

end Extends

/-- No edge joins a state below `k` with one from `k` on. -/
def Separated (n : Net) (k : Nat) : Prop := ∀ i v j, n.Edge i v j → (k ≤ i ↔ k ≤ j)

theorem Bounded.separated {n : Net} (h : n.Bounded) : n.Separated n.size := by
  intro i v j he
  have hlt := h i v j he
  omega

theorem Extends.separated {n m : Net} (h : n.Extends m) {k : Nat} (hk : k ≤ n.size)
    (hn : n.Separated k) : m.Separated k := by
  intro i v j he
  rcases h.new i v j he with he | ⟨hi, hj⟩
  · exact hn i v j he
  · omega

theorem Bounded.addFragment {n : Net} (h : n.Bounded) : n.addFragment.2.Bounded := by
  intro i v j he
  have hlt := h i v j he
  have hsize : n.addFragment.2.size = n.size + 2 := rfl
  omega

theorem Bounded.addSilent {n : Net} (h : n.Bounded) {s t : Nat} (hs : s < n.size)
    (ht : t < n.size) : (n.addSilent s t).Bounded := by
  intro i v j he
  rcases (edge_addSilent n s t i v j).1 he with he | ⟨rfl, -, rfl⟩
  · exact h i v j he
  · exact ⟨hs, ht⟩

/-- `m` is `n` with a fragment `f` through which the words of `L` lead. -/
structure Realises (n m : Net) (f : Fragment) (L : Language Char) : Prop where
  ext : n.Extends m
  bounded : m.Bounded
  le_start : n.size ≤ f.start
  start_lt : f.start < m.size
  le_accept : n.size ≤ f.accept
  accept_lt : f.accept < m.size
  start_ne_accept : f.start ≠ f.accept
  between_eq : between m.Edge f.start f.accept = L

namespace Realises

variable {n m k : Net} {f : Fragment} {L : Language Char}

/-- Whatever is added later leads through other states. -/
theorem leads_iff (h : Realises n m f L) (hk : m.Extends k) (w : List Char) :
    Leads k.Edge f.start w f.accept ↔ w ∈ L := by
  rw [hk.leads_iff h.bounded h.start_lt, ← h.between_eq]
  rfl

/-- A fragment also extends the nets that its net extends. -/
theorem of_extends (h : Realises m k f L) (hn : n.Extends m) : Realises n k f L where
  ext := hn.trans h.ext
  bounded := h.bounded
  le_start := hn.size_le.trans h.le_start
  start_lt := h.start_lt
  le_accept := hn.size_le.trans h.le_accept
  accept_lt := h.accept_lt
  start_ne_accept := h.start_ne_accept
  between_eq := h.between_eq

end Realises

/-! ## Fragments of one literal -/

/-- A fragment whose only edges are the given ones from its entry to its exit. -/
theorem realises_of_edge {n m : Net} (hn : n.Bounded) (hsize : m.size = n.size + 2)
    {L : Language Char} (hm : ∀ i v j, m.Edge i v j ↔
      n.Edge i v j ∨ (i = n.size ∧ v ∈ L ∧ j = n.size + 1)) :
    Realises n m ⟨n.size, n.size + 1⟩ L where
  ext := by
    refine ⟨by omega, fun i v j he => (hm i v j).2 (.inl he), fun i v j he => ?_⟩
    rcases (hm i v j).1 he with he | ⟨rfl, -, rfl⟩
    · exact .inl he
    · exact .inr ⟨Nat.le_refl _, Nat.le_succ _⟩
  bounded := by
    intro i v j he
    rcases (hm i v j).1 he with he | ⟨rfl, -, rfl⟩
    · have hlt := hn i v j he
      omega
    · omega
  le_start := Nat.le_refl _
  start_lt := by
    change n.size < m.size
    omega
  le_accept := Nat.le_succ _
  accept_lt := by
    change n.size + 1 < m.size
    omega
  start_ne_accept := Nat.ne_of_lt (Nat.lt_succ_self _)
  between_eq := by
    ext w
    constructor
    · intro h
      obtain ⟨v, q, u, rfl, he, hrest⟩ := Leads.exists_first h (Nat.ne_of_lt (Nat.lt_succ_self _))
      rcases (hm n.size v q).1 he with he | ⟨-, hv, rfl⟩
      · exact absurd (hn _ v q he).1 (Nat.lt_irrefl _)
      · have hstay : ∀ v r, ¬ m.Edge (n.size + 1) v r := by
          intro v r he
          rcases (hm _ v r).1 he with he | ⟨heq, -, -⟩
          · have hlt := (hn _ v r he).1
            omega
          · omega
        obtain ⟨-, rfl⟩ := Leads.eq_of_no_edge hstay hrest
        rwa [List.append_nil]
    · intro h
      exact Leads.single ((hm _ w _).2 (.inr ⟨rfl, h, rfl⟩))

theorem realises_addEmpty {n : Net} (hn : n.Bounded) :
    Realises n n.addEmpty.2 n.addEmpty.1 0 := by
  refine realises_of_edge hn rfl fun i v j => ?_
  have hedge := edge_addBlank n.addFragment.2 n.size (n.size + 1) i v j
  have hzero := Language.notMem_zero v
  simp only [hzero, false_and, and_false, or_false]
  exact hedge

theorem realises_addChar {n : Net} (hn : n.Bounded) (c : Char) :
    Realises n (n.addChar c).2 (n.addChar c).1 {literalWord c} := by
  refine realises_of_edge hn rfl fun i v j => ?_
  have hedge := edge_addSymbol n.addFragment.2 n.size c (n.size + 1) i v j
  exact hedge

/-! ## Fragments inside fragments -/

theorem edge_enclose (m : Net) (o f : Fragment) (i : Nat) (v : List Char) (j : Nat) :
    (m.enclose o f).Edge i v j ↔ m.Edge i v j ∨ (i = o.start ∧ v = [] ∧ j = f.start) ∨
      (i = f.accept ∧ v = [] ∧ j = o.accept) := by
  rw [enclose, edge_addSilent, edge_addSilent, or_assoc]

/-- Putting a fragment `f` inside a fragment `o` adds its words to those of `o`, if `f` lies in
a part `P` of the net that nothing joins to the rest, and if `o` is not entered again or
left again. -/
theorem between_enclose {m : Net} {o f : Fragment} {P : Nat → Prop}
    (hP : ∀ i v j, m.Edge i v j → (P i ↔ P j)) (hstart : P f.start) (haccept : P f.accept)
    (hs : ¬ P o.start) (ht : ¬ P o.accept) (hne : o.start ≠ o.accept)
    (hin : ∀ i v, ¬ m.Edge i v o.start) (hout : ∀ v j, ¬ m.Edge o.accept v j) :
    between (m.enclose o f).Edge o.start o.accept =
      between m.Edge o.start o.accept + between m.Edge f.start f.accept := by
  have hedge := edge_enclose m o f
  have hold : ∀ i v j, m.Edge i v j → (m.enclose o f).Edge i v j :=
    fun i v j he => (hedge i v j).2 (.inl he)
  ext w
  rw [Language.mem_add, Leads.mem_between, Leads.mem_between, Leads.mem_between]
  constructor
  · intro h
    obtain ⟨v, q, u, rfl, he, hrest⟩ := h.exists_first hne
    rcases (hedge _ v q).1 he with he | ⟨-, rfl, rfl⟩ | ⟨heq, -, -⟩
    · -- The walk begins outside of the part, and can only stay there.
      have hq : ¬ P q ∧ q ≠ o.start :=
        ⟨fun hq => hs ((hP _ v q he).2 hq), fun hq => hin _ v (hq ▸ he)⟩
      have hstay := Leads.confined (F := m.Edge) (P := fun i => ¬ P i ∧ i ≠ o.start)
        (fun i v j hi he => by
          rcases (hedge i v j).1 he with he | ⟨rfl, -, -⟩ | ⟨rfl, -, -⟩
          · exact ⟨⟨fun hj => hi.1 ((hP i v j he).2 hj), fun hj => hin i v (hj ▸ he)⟩, he⟩
          · exact absurd rfl hi.2
          · exact absurd haccept hi.1) hq hrest
      exact .inl (.cons he hstay.2)
    · -- The walk enters the part, crosses it and stops at the exit.
      obtain ⟨v, u', rfl, hv, hu⟩ := Leads.escape (F := m.Edge) (P := P)
        (a := f.accept) (b := o.accept) (fun i v j hi he => by
          rcases (hedge i v j).1 he with he | ⟨rfl, -, -⟩ | ⟨rfl, rfl, rfl⟩
          · exact .inl ⟨(hP i v j he).1 hi, he⟩
          · exact absurd hi hs
          · exact .inr ⟨rfl, rfl, rfl⟩) hstart ht hrest
      have hlast : ∀ v j, ¬ (m.enclose o f).Edge o.accept v j := by
        intro v j he
        rcases (hedge _ v j).1 he with he | ⟨heq, -, -⟩ | ⟨heq, -, -⟩
        · exact hout v j he
        · exact hne heq.symm
        · exact ht (heq ▸ haccept)
      obtain ⟨-, rfl⟩ := Leads.eq_of_no_edge hlast hu
      rw [List.append_nil]
      exact .inr hv
    · exact absurd (heq ▸ haccept) hs
  · rintro (h | h)
    · exact h.mono hold
    · have henter : (m.enclose o f).Edge o.start [] f.start :=
        (hedge _ _ _).2 (.inr (.inl ⟨rfl, rfl, rfl⟩))
      have hleave : (m.enclose o f).Edge f.accept [] o.accept :=
        (hedge _ _ _).2 (.inr (.inr ⟨rfl, rfl, rfl⟩))
      have hwhole := (Leads.cons henter (h.mono hold)).append (Leads.single hleave)
      rwa [List.append_nil] at hwhole

/-! ## Repetitions -/

namespace Realises

variable {n m : Net} {f : Fragment} {L : Language Char}

theorem plus (h : Realises n m f L) :
    Realises n (m.plus f).2 (m.plus f).1 (L * L∗) where
  ext := h.ext.addSilent h.le_accept h.le_start
  bounded := h.bounded.addSilent h.accept_lt h.start_lt
  le_start := h.le_start
  start_lt := h.start_lt
  le_accept := h.le_accept
  accept_lt := h.accept_lt
  start_ne_accept := h.start_ne_accept
  between_eq := by
    ext w
    rw [Leads.mem_between, ← h.between_eq]
    exact Leads.loop_iff fun i v j => edge_addSilent m f.accept f.start i v j

theorem loopOrSkip (h : Realises n m f L) (hin : ∀ i v, ¬ m.Edge i v f.start)
    (hout : ∀ v j, ¬ m.Edge f.accept v j) :
    Realises n (m.loopOrSkip f).2 (m.loopOrSkip f).1 L∗ where
  ext := (h.ext.addSilent h.le_accept h.le_start).addSilent h.le_start h.le_accept
  bounded := (h.bounded.addSilent h.accept_lt h.start_lt).addSilent h.start_lt h.accept_lt
  le_start := h.le_start
  start_lt := h.start_lt
  le_accept := h.le_accept
  accept_lt := h.accept_lt
  start_ne_accept := h.start_ne_accept
  between_eq := by
    ext w
    rw [Leads.mem_between, ← h.between_eq]
    refine Leads.loopOrSkip_iff hin hout fun i v j => ?_
    rw [Net.loopOrSkip, edge_addSilent, edge_addSilent, or_assoc]

theorem isolate (h : Realises n m f L) :
    Realises n (m.isolate f).2 (m.isolate f).1 L where
  ext := by
    have hle := h.ext.size_le
    exact ((h.ext.trans (Extends.addFragment m)).addSilent hle h.le_start).addSilent
      h.le_accept (hle.trans (Nat.le_succ _))
  bounded := by
    have hsize : m.addFragment.2.size = m.size + 2 := rfl
    have hstart := h.start_lt
    have haccept := h.accept_lt
    have hinner : (m.addFragment.2.addSilent m.size f.start).Bounded :=
      h.bounded.addFragment.addSilent (by omega) (by omega)
    exact hinner.addSilent (by change f.accept < m.size + 2; omega) (Nat.lt_succ_self _)
  le_start := h.ext.size_le
  start_lt := Nat.lt_add_of_pos_right (by decide)
  le_accept := h.ext.size_le.trans (Nat.le_succ _)
  accept_lt := Nat.lt_succ_self _
  start_ne_accept := Nat.ne_of_lt (Nat.lt_succ_self _)
  between_eq := by
    have hfresh : ∀ {i v j}, m.addFragment.2.Edge i v j → i < m.size ∧ j < m.size :=
      fun he => h.bounded _ _ _ he
    have hsplit := between_enclose (m := m.addFragment.2) (o := m.addFragment.1) (f := f)
      (P := fun i => i < m.size)
      (fun i v j he => ⟨fun _ => (hfresh he).2, fun _ => (hfresh he).1⟩) h.start_lt
      h.accept_lt (Nat.lt_irrefl _) (by change ¬ m.size + 1 < m.size; omega)
      (Nat.ne_of_lt (Nat.lt_succ_self _)) (fun i v he => Nat.lt_irrefl _ (hfresh he).2)
      (fun v j he => by
        have hlt : m.size + 1 < m.size := (hfresh he).1
        omega)
    have hnone : between m.addFragment.2.Edge m.size (m.size + 1) = 0 := by
      ext w
      constructor
      · intro hw
        obtain ⟨v, q, u, -, he, -⟩ :=
          Leads.exists_first hw (Nat.ne_of_lt (Nat.lt_succ_self _))
        exact absurd (hfresh he).1 (Nat.lt_irrefl _)
      · exact fun hw => absurd hw (Language.notMem_zero w)
    calc between (m.isolate f).2.Edge m.size (m.size + 1)
        = between m.addFragment.2.Edge m.size (m.size + 1) +
            between m.Edge f.start f.accept := hsplit
      _ = L := by rw [hnone, zero_add, h.between_eq]

/-- An isolated fragment has no edge into its entry. -/
theorem not_edge_isolate_start (h : Realises n m f L) (i : Nat) (v : List Char) :
    ¬ (m.isolate f).2.Edge i v (m.isolate f).1.start := by
  intro he
  have hstart := h.start_lt
  rcases (edge_enclose m.addFragment.2 m.addFragment.1 f i v m.size).1 he with
    he | ⟨-, -, hj⟩ | ⟨-, -, hj⟩
  · exact Nat.lt_irrefl _ (h.bounded i v m.size he).2
  · omega
  · exact Nat.ne_of_lt (Nat.lt_succ_self m.size) hj

/-- An isolated fragment has no edge out of its exit. -/
theorem not_edge_isolate_accept (h : Realises n m f L) (v : List Char) (j : Nat) :
    ¬ (m.isolate f).2.Edge (m.isolate f).1.accept v j := by
  intro he
  have haccept := h.accept_lt
  rcases (edge_enclose m.addFragment.2 m.addFragment.1 f (m.size + 1) v j).1 he with
    he | ⟨hi, -, -⟩ | ⟨hi, -, -⟩
  · have hlt := (h.bounded (m.size + 1) v j he).1
    omega
  · exact Nat.ne_of_gt (Nat.lt_succ_self m.size) hi
  · omega

theorem star (h : Realises n m f L) : Realises n (m.star f).2 (m.star f).1 L∗ := by
  rw [Net.star]
  split
  · exact h.isolate.loopOrSkip h.not_edge_isolate_start h.not_edge_isolate_accept
  · next hisolate =>
      -- The fragment is taken over only if nothing enters its entry or leaves its exit.
      have hnone : m.hasIncoming f.start = false ∧ m.hasOutgoing f.accept = false := by
        simpa [mustIsolate] using hisolate
      exact h.loopOrSkip (not_edge_of_hasIncoming hnone.1) (not_edge_of_hasOutgoing hnone.2)

end Realises

end Net

end FiniteState
