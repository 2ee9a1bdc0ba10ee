import FiniteState.Proofs.Net.Language
import FiniteState.Regex.Collapse

/-!
# No state of a net is lost

From the entry of the fragment of an expression, walks lead to all states that were added for the
expression. The induction follows the tree: each fragment spans the states of its own, and the
silent ways that are put around fragments lead into each of them. The exit of a choice is the only
state that nothing leads to before the first part has been added, so a choice needs a part; an
expression that has been read from a text has no choice without parts.
-/

namespace FiniteState

namespace Net

/-- Walks lead from `s` to all states from `lo` on and below `hi`. -/
def Spans (m : Net) (s lo hi : Nat) : Prop :=
  ∀ i, lo ≤ i → i < hi → ∃ w, Leads m.Edge s w i

variable {n m k : Net} {f o : Fragment} {s t lo mid hi : Nat} {L : Language Char}

namespace Spans

theorem mono (h : m.Spans s lo hi) (hmk : ∀ i v j, m.Edge i v j → k.Edge i v j) :
    k.Spans s lo hi := by
  intro i hlo hhi
  obtain ⟨w, hw⟩ := h i hlo hhi
  exact ⟨w, hw.mono hmk⟩

theorem of_leads {w : List Char} (h : m.Spans t lo hi) (hw : Leads m.Edge s w t) :
    m.Spans s lo hi := by
  intro i hlo hhi
  obtain ⟨u, hu⟩ := h i hlo hhi
  exact ⟨w ++ u, hw.append hu⟩

theorem append (h : m.Spans s lo mid) (h' : m.Spans s mid hi) : m.Spans s lo hi := by
  intro i hlo hhi
  rcases Nat.lt_or_ge i mid with hmid | hmid
  · exact h i hlo hmid
  · exact h' i hmid hhi

/-- An edge spans its two ends. -/
theorem of_edge {v : List Char} (he : m.Edge s v (s + 1)) : m.Spans s s (s + 2) := by
  intro i hlo hhi
  rcases Nat.eq_or_lt_of_le hlo with rfl | hlt
  · exact ⟨[], .nil s⟩
  · obtain rfl : i = s + 1 := by omega
    exact ⟨v, .single he⟩

/-- A fragment inside another is spanned from the entry of the other, whose exit is reached
through it. -/
theorem enclose (h : m.Spans f.start lo hi) (hlo : lo ≤ f.accept) (hhi : f.accept < hi)
    (o : Fragment) : (m.enclose o f).Spans o.start lo hi ∧
      ∃ w, Leads (m.enclose o f).Edge o.start w o.accept := by
  have hedge := edge_enclose m o f
  have henter : Leads (m.enclose o f).Edge o.start [] f.start :=
    .single ((hedge _ _ _).2 (.inr (.inl ⟨rfl, rfl, rfl⟩)))
  have hleave : Leads (m.enclose o f).Edge f.accept [] o.accept :=
    .single ((hedge _ _ _).2 (.inr (.inr ⟨rfl, rfl, rfl⟩)))
  have hinner : (m.enclose o f).Spans o.start lo hi :=
    (h.mono fun i v j he => (hedge i v j).2 (.inl he)).of_leads henter
  obtain ⟨w, hw⟩ := hinner f.accept hlo hhi
  exact ⟨hinner, _, hw.append hleave⟩

theorem addSilent (h : m.Spans s lo hi) (i j : Nat) : (m.addSilent i j).Spans s lo hi :=
  h.mono fun p v q he => (edge_addSilent m i j p v q).2 (.inl he)

end Spans

/-! ## Repetitions -/

namespace Realises

theorem spans_isolate (h : Realises n m f L) (hf : m.Spans f.start n.size m.size) :
    (m.isolate f).2.Spans (m.isolate f).1.start n.size (m.isolate f).2.size := by
  have hfresh : m.addFragment.2.Spans f.start n.size m.size := hf
  obtain ⟨hinner, w, hw⟩ := hfresh.enclose h.le_accept h.accept_lt m.addFragment.1
  refine hinner.append fun i hlo hhi => ?_
  change i < m.size + 2 at hhi
  rcases Nat.eq_or_lt_of_le hlo with rfl | hlt
  · exact ⟨[], .nil _⟩
  · obtain rfl : i = m.size + 1 := by omega
    exact ⟨w, hw⟩

theorem spans_star (h : Realises n m f L) (hf : m.Spans f.start n.size m.size) :
    (m.star f).2.Spans (m.star f).1.start n.size (m.star f).2.size := by
  rw [Net.star]
  split
  · exact ((h.spans_isolate hf).addSilent _ _).addSilent _ _
  · exact (hf.addSilent _ _).addSilent _ _

/-- A choice with a part more is spanned, also if its exit has not been reached before. -/
theorem spans_enclose (h : Realises n m f L) (hf : m.Spans f.start n.size m.size)
    (hn : ∀ i, lo ≤ i → i < n.size → i ≠ o.accept → ∃ w, Leads n.Edge o.start w i) :
    (m.enclose o f).Spans o.start lo m.size := by
  obtain ⟨hinner, w, hw⟩ := hf.enclose h.le_accept h.accept_lt o
  refine Spans.append (fun i hlo hhi => ?_) hinner
  by_cases hi : i = o.accept
  · exact ⟨w, hi ▸ hw⟩
  · obtain ⟨u, hu⟩ := hn i hlo hhi hi
    have hold : ∀ i v j, n.Edge i v j → (m.enclose o f).Edge i v j := fun i v j he =>
      (edge_enclose m o f i v j).2 (.inl (h.ext.old i v j he))
    exact ⟨u, hu.mono hold⟩

end Realises

end Net

/-! ## Expressions -/

namespace Regex

open Net

mutual

/-- The fragment of an expression spans the states that have been added for it. -/
theorem spans_addTo : ∀ {r : Regex}, Proper 1 r → ∀ {n : Net}, n.Bounded →
    (addTo n r).2.Spans (addTo n r).1.start n.size (addTo n r).2.size
  | .empty, hr, n, hn => by cases hr
  | .char c, hr, n, hn => by
      rw [addTo]
      exact .of_edge ((edge_addSymbol _ _ _ _ _ _ _).2 (.inr ⟨rfl, rfl, rfl⟩))
  | .concat parts, hr, n, hn => by
      obtain ⟨hlen, hparts⟩ : 1 ≤ parts.length ∧ ∀ r ∈ parts, Proper 1 r := by
        cases hr with
        | concat _ hlen h => exact ⟨hlen, h⟩
      have hedge := edge_chain (addParts n parts).2 (addParts n parts).1
      rw [addTo]
      cases hfs : (addParts n parts).1 with
      | nil =>
          cases parts with
          | nil => cases hlen
          | cons r rs => cases hfs
      | cons f fs =>
          rw [hfs] at hedge
          have hspans := spans_addParts hparts hn hfs
            (fun i v j he => (hedge i v j).2 (.inl he))
            (fun i j hij => (hedge i [] j).2 (.inr ⟨rfl, hij⟩))
          change ((addParts n parts).2.chain (f :: fs)).Spans f.start n.size
            ((addParts n parts).2.chain (f :: fs)).size
          rwa [size_chain]
  | .alt parts, hr, n, hn => by
      obtain ⟨hlen, hparts⟩ : 1 ≤ parts.length ∧ ∀ r ∈ parts, Proper 1 r := by
        cases hr with
        | alt _ hlen h => exact ⟨hlen, h⟩
      obtain ⟨hrealises, hsealed⟩ := realises_addFragment hn
      rw [addTo]
      refine spans_addChoices hparts hrealises hsealed ?_ ?_
      · intro i hlo hhi hi
        change i < n.size + 2 at hhi
        change i ≠ n.size + 1 at hi
        obtain rfl : i = n.size := by omega
        exact ⟨[], .nil _⟩
      · rintro rfl
        cases hlen
  | .many body, hr, n, hn => by
      have hbody : Proper 1 body := by
        cases hr with
        | many _ h => exact h
      rw [addTo]
      exact (realises_addTo body hn).spans_star (spans_addTo hbody hn)
  | .many1 body, hr, n, hn => by
      have hbody : Proper 1 body := by
        cases hr with
        | many1 _ h => exact h
      rw [addTo]
      exact (spans_addTo hbody hn).addSilent _ _

/-- The fragments of the parts of a sequence span their states together, once each has been joined
to the one after it. -/
theorem spans_addParts : ∀ {rs : List Regex}, (∀ r ∈ rs, Proper 1 r) → ∀ {n : Net}, n.Bounded →
    ∀ {f : Fragment} {fs : List Fragment}, (addParts n rs).1 = f :: fs → ∀ {k : Net},
    (∀ i v j, (addParts n rs).2.Edge i v j → k.Edge i v j) →
    (∀ i j, Joined (f :: fs) i j → k.Edge i [] j) → k.Spans f.start n.size (addParts n rs).2.size
  | [], hrs, n, hn, f, fs, hfs, k, hedge, hjoined => by cases hfs
  | r :: rs, hrs, n, hn, f, fs, hfs, k, hedge, hjoined => by
      obtain ⟨hr, hrs⟩ := List.forall_mem_cons.1 hrs
      have hrealises := realises_addTo r hn
      obtain ⟨hext, -, -⟩ := laid_addParts rs hrealises.bounded
      rw [addParts] at hfs hedge ⊢
      obtain ⟨rfl, rfl⟩ := List.cons.inj hfs
      have hfirst := (spans_addTo hr hn).mono fun i v j he => hedge i v j (hext.old i v j he)
      refine hfirst.append ?_
      cases hgs : (addParts (addTo n r).2 rs).1 with
      | nil =>
          cases rs with
          | nil => exact fun i hlo hhi => absurd hlo (Nat.not_le_of_lt hhi)
          | cons s rs => cases hgs
      | cons g gs =>
          rw [hgs] at hjoined
          have hrest := spans_addParts hrs hrealises.bounded hgs hedge
            fun i j hij => hjoined i j (.inr hij)
          obtain ⟨w, hw⟩ := hfirst _ hrealises.le_accept hrealises.accept_lt
          exact hrest.of_leads (hw.append (.single (hjoined _ _ (.inl ⟨rfl, rfl⟩))))

/-- The fragment of a choice spans the states of its parts. -/
theorem spans_addChoices : ∀ {rs : List Regex}, (∀ r ∈ rs, Proper 1 r) →
    ∀ {n m : Net} {o : Fragment} {L : Language Char}, Realises n m o L → Sealed m o →
    (∀ i, n.size ≤ i → i < m.size → i ≠ o.accept → ∃ w, Leads m.Edge o.start w i) →
    (rs = [] → m.Spans o.start n.size m.size) →
    (addChoices m o rs).Spans o.start n.size (addChoices m o rs).size
  | [], hrs, n, m, o, L, ho, hsealed, hm, hnil => by
      rw [addChoices]
      exact hnil rfl
  | r :: rs, hrs, n, m, o, L, ho, hsealed, hm, hnil => by
      obtain ⟨hr, hrs⟩ := List.forall_mem_cons.1 hrs
      have hrealises := realises_addTo r ho.bounded
      obtain ⟨hnext, hsealed'⟩ := ho.enclose hsealed hrealises
      have hspans := hrealises.spans_enclose (spans_addTo hr ho.bounded) hm
      rw [addChoices]
      exact spans_addChoices hrs hnext hsealed' (fun i hlo hhi _ => hspans i hlo hhi)
        fun _ => hspans

end

/-- Walks lead from the entry to all states of the net of an expression. -/
theorem spans_net {r : Regex} (hr : Proper 1 r) : r.net.2.Spans r.net.1.start 0 r.net.2.size :=
  spans_addTo hr bounded_empty

end Regex

end FiniteState
