import FiniteState.Proofs.Net.Fragment
import FiniteState.Regex.Language

/-!
# The language of a net

`realises_addTo` says that the fragment that is added for an expression lets through the
words of the expression, whatever net it is added to and whatever tree the expression is.
The induction follows the tree. A sequence is joined together after all of its parts have
been added, so the parts are first laid out side by side (`Laid`) and what the joints do is
shown for a layout; a choice takes in its parts one by one, and its fragment stays one that
is not entered again or left again.
-/

namespace FiniteState

namespace Net

open scoped Computability

/-! ## Sequences -/

/-- Fragments for the given expressions, one behind the other from the state `lo` on, none
of them joined to another. -/
inductive Laid (m : Net) : Nat → List Fragment → List Regex → Prop
  | nil (lo : Nat) : Laid m lo [] []
  | cons {lo hi : Nat} {f : Fragment} {fs : List Fragment} {r : Regex} {rs : List Regex}
      (hstart : lo ≤ f.start ∧ f.start < hi) (haccept : lo ≤ f.accept ∧ f.accept < hi)
      (hne : f.start ≠ f.accept) (hhi : hi ≤ m.size) (hsep : m.Separated hi)
      (hbetween : between m.Edge f.start f.accept = r.language) (hrest : Laid m hi fs rs) :
      Laid m lo (f :: fs) (r :: rs)

/-- The exit of a fragment and the entry of the one after it. -/
def Joined : List Fragment → Nat → Nat → Prop
  | f :: g :: rest, i, j => (i = f.accept ∧ j = g.start) ∨ Joined (g :: rest) i j
  | _, _, _ => False

theorem edge_chain (m : Net) (fs : List Fragment) (i : Nat) (v : List Char) (j : Nat) :
    (m.chain fs).Edge i v j ↔ m.Edge i v j ∨ (v = [] ∧ Joined fs i j) := by
  induction fs generalizing m with
  | nil => simp [chain, Joined]
  | cons f fs ih =>
      cases fs with
      | nil => simp [chain, Joined]
      | cons g rest =>
          rw [chain, ih, edge_addSilent, Joined, or_assoc, and_or_left, and_left_comm]

theorem size_chain (m : Net) (fs : List Fragment) : (m.chain fs).size = m.size := by
  induction fs generalizing m with
  | nil => rfl
  | cons f fs ih =>
      cases fs with
      | nil => rfl
      | cons g rest =>
          rw [chain, ih]
          rfl

/-- The exit of the last of the fragments `f :: fs`. -/
def exitOf (f : Fragment) (fs : List Fragment) : Nat :=
  ((f :: fs).getLast (List.cons_ne_nil f fs)).accept

@[simp] theorem exitOf_nil (f : Fragment) : exitOf f [] = f.accept := rfl

@[simp] theorem exitOf_cons (f g : Fragment) (fs : List Fragment) :
    exitOf f (g :: fs) = exitOf g fs := by
  rw [exitOf, exitOf, List.getLast_cons (List.cons_ne_nil g fs)]

namespace Laid

variable {m k : Net} {lo : Nat} {f : Fragment} {fs : List Fragment} {r : Regex}
  {rs : List Regex}

/-- Joints are made within the layout. -/
theorem joined_mem (h : Laid m lo fs rs) {i j : Nat} (hij : Joined fs i j) :
    (lo ≤ i ∧ i < m.size) ∧ lo ≤ j ∧ j < m.size := by
  induction h with
  | nil lo => exact absurd hij id
  | @cons lo hi f fs r rs hstart haccept hne hhi hsep hbetween hrest ih =>
      cases hrest with
      | nil => exact absurd hij id
      | cons hstart' _ _ hhi' _ _ _ =>
          rcases hij with ⟨rfl, rfl⟩ | hij
          · omega
          · have hmem := ih hij
            omega

theorem exitOf_mem (h : Laid m lo (f :: fs) rs) : lo ≤ exitOf f fs ∧ exitOf f fs < m.size := by
  induction fs generalizing lo f rs with
  | nil =>
      cases h with
      | cons _ haccept _ hhi _ _ _ =>
          rw [exitOf_nil]
          omega
  | cons g fs ih =>
      cases h with
      | cons hstart _ _ _ _ _ hrest =>
          have hmem := ih hrest
          rw [exitOf_cons]
          omega

theorem start_ne_exitOf (h : Laid m lo (f :: fs) rs) : f.start ≠ exitOf f fs := by
  cases h with
  | cons hstart _ hne _ _ _ hrest =>
      cases fs with
      | nil => exact hne
      | cons g fs =>
          have hmem := hrest.exitOf_mem
          rw [exitOf_cons]
          omega

/-- From the second fragment on, the first joint can no longer be used. -/
theorem leads_joined_tail_iff {hi : Nat} {g : Fragment} (hsep : m.Separated hi)
    (haccept : f.accept < hi) (h : Laid m hi (g :: fs) rs) {u : List Char} {j : Nat} :
    Leads (fun i v j => m.Edge i v j ∨ (v = [] ∧ Joined (f :: g :: fs) i j)) g.start u j ↔
      Leads (fun i v j => m.Edge i v j ∨ (v = [] ∧ Joined (g :: fs) i j)) g.start u j := by
  have hstart : hi ≤ g.start := by
    cases h with
    | cons hstart _ _ _ _ _ _ => exact hstart.1
  refine Leads.iff_of_confined (P := fun i => hi ≤ i) ?_ ?_ hstart
  · intro i v j hle
    rw [Joined]
    constructor
    · intro he
      rcases he with he | ⟨hv, ⟨rfl, -⟩ | hij⟩
      · exact .inl he
      · omega
      · exact .inr ⟨hv, hij⟩
    · intro he
      rcases he with he | ⟨hv, hij⟩
      · exact .inl he
      · exact .inr ⟨hv, .inr hij⟩
  · intro i v j hle he
    rcases he with he | ⟨-, ⟨rfl, -⟩ | hij⟩
    · exact (hsep i v j he).1 hle
    · omega
    · exact (h.joined_mem hij).2.1

/-- The joints of a layout lead through its fragments one after the other. -/
theorem between_joined (h : Laid m lo (f :: fs) (r :: rs)) :
    between (fun i v j => m.Edge i v j ∨ (v = [] ∧ Joined (f :: fs) i j)) f.start
      (exitOf f fs) = Regex.languageInTurn (r :: rs) := by
  induction fs generalizing lo f r rs with
  | nil =>
      cases h with
      | cons _ _ _ _ _ hbetween hrest =>
          cases hrest
          simpa [Joined] using hbetween
  | cons g fs ih =>
      cases h with
      | @cons _ hi _ _ _ _ hstart haccept hne hhi hsep hbetween hrest =>
          cases rs with
          | nil => cases hrest
          | cons s rs =>
              have hlo : ∀ {i j}, Joined (g :: fs) i j → hi ≤ i :=
                fun hij => (hrest.joined_mem hij).1.1
              have hexit := hrest.exitOf_mem
              rw [exitOf_cons, Regex.languageInTurn_cons r _ (List.cons_ne_nil s rs),
                ← ih hrest, ← hbetween]
              have htail : ∀ u, Leads (fun i v j => m.Edge i v j ∨
                  (v = [] ∧ Joined (f :: g :: fs) i j)) g.start u (exitOf g fs) ↔
                  Leads (fun i v j => m.Edge i v j ∨ (v = [] ∧ Joined (g :: fs) i j))
                    g.start u (exitOf g fs) :=
                fun u => leads_joined_tail_iff hsep haccept.2 hrest
              ext w
              rw [Leads.mem_between, Language.mem_mul]
              constructor
              · intro hw
                obtain ⟨v, u, rfl, hv, hu⟩ := Leads.escape (F := m.Edge)
                  (P := fun i => i < hi) (a := f.accept) (b := g.start)
                  (fun i v j hlt he => by
                    rcases he with he | ⟨rfl, ⟨rfl, rfl⟩ | hij⟩
                    · have hiff := hsep i v j he
                      exact .inl ⟨by omega, he⟩
                    · exact .inr ⟨rfl, rfl, rfl⟩
                    · have hle := hlo hij
                      omega) hstart.2 (by omega) hw
                exact ⟨v, hv, u, (htail u).1 hu, rfl⟩
              · rintro ⟨v, hv, u, hu, rfl⟩
                have hfirst : Leads (fun i v j => m.Edge i v j ∨
                    (v = [] ∧ Joined (f :: g :: fs) i j)) f.start v f.accept :=
                  Leads.mono (fun i v j he => .inl he) hv
                have hjoint : Leads (fun i v j => m.Edge i v j ∨
                    (v = [] ∧ Joined (f :: g :: fs) i j)) f.accept [] g.start :=
                  Leads.single (.inr ⟨rfl, .inl ⟨rfl, rfl⟩⟩)
                exact hfirst.append (hjoint.append ((htail u).2 hu))

end Laid

theorem realises_sequence {n m : Net} (hext : n.Extends m) (hm : m.Bounded)
    {f : Fragment} {fs : List Fragment} {r : Regex} {rs : List Regex}
    (h : Laid m n.size (f :: fs) (r :: rs)) :
    Realises n (m.sequence (f :: fs)).2 (m.sequence (f :: fs)).1
      (Regex.languageInTurn (r :: rs)) where
  ext := by
    change n.Extends (m.chain (f :: fs))
    refine ⟨?_, fun i v j he => (edge_chain m _ i v j).2 (.inl (hext.old i v j he)), ?_⟩
    · rw [size_chain]
      exact hext.size_le
    · intro i v j he
      rcases (edge_chain m _ i v j).1 he with he | ⟨-, hij⟩
      · exact hext.new i v j he
      · have hmem := h.joined_mem hij
        exact .inr ⟨hmem.1.1, hmem.2.1⟩
  bounded := by
    change (m.chain (f :: fs)).Bounded
    intro i v j he
    rw [size_chain]
    rcases (edge_chain m _ i v j).1 he with he | ⟨-, hij⟩
    · exact hm i v j he
    · have hmem := h.joined_mem hij
      exact ⟨hmem.1.2, hmem.2.2⟩
  le_start := by
    cases h with
    | cons hstart _ _ _ _ _ _ => exact hstart.1
  start_lt := by
    change f.start < (m.chain (f :: fs)).size
    rw [size_chain]
    cases h with
    | cons hstart _ _ hhi _ _ _ => omega
  le_accept := h.exitOf_mem.1
  accept_lt := by
    change exitOf f fs < (m.chain (f :: fs)).size
    rw [size_chain]
    exact h.exitOf_mem.2
  start_ne_accept := h.start_ne_exitOf
  between_eq := by
    have hedge : (m.chain (f :: fs)).Edge =
        fun i v j => m.Edge i v j ∨ (v = [] ∧ Joined (f :: fs) i j) := by
      funext i v j
      exact propext (edge_chain m (f :: fs) i v j)
    change between (m.chain (f :: fs)).Edge f.start (exitOf f fs) = _
    rw [hedge]
    exact h.between_joined

/-! ## Choices -/

/-- A fragment that is neither entered again nor left again. -/
structure Sealed (m : Net) (f : Fragment) : Prop where
  not_entered : ∀ i v, ¬ m.Edge i v f.start
  not_left : ∀ v j, ¬ m.Edge f.accept v j

/-- The fragment of a choice with no parts yet. -/
theorem realises_addFragment {n : Net} (hn : n.Bounded) :
    Realises n n.addFragment.2 n.addFragment.1 0 ∧
      Sealed n.addFragment.2 n.addFragment.1 := by
  refine ⟨realises_of_edge hn rfl fun i v j => ?_, ?_, ?_⟩
  · have hzero := Language.notMem_zero v
    simp only [hzero, false_and, and_false, or_false]
    exact Iff.rfl
  · intro i v he
    exact absurd (hn i v n.size he).2 (Nat.lt_irrefl _)
  · intro v j he
    have hlt : n.size + 1 < n.size := (hn (n.size + 1) v j he).1
    omega

/-- A part more, whose fragment has been added after the fragment of the choice. -/
theorem Realises.enclose {n m k : Net} {o f : Fragment} {L M : Language Char}
    (ho : Realises n m o L) (hsealed : Sealed m o) (hf : Realises m k f M) :
    Realises n (k.enclose o f) o (L + M) ∧ Sealed (k.enclose o f) o := by
  have hsize := hf.ext.size_le
  have hmle := ho.ext.size_le
  have hostart := ho.le_start
  have hostart' := ho.start_lt
  have hoaccept := ho.le_accept
  have hoaccept' := ho.accept_lt
  have hfstart := hf.le_start
  have hfstart' := hf.start_lt
  have hfaccept := hf.le_accept
  have hfaccept' := hf.accept_lt
  have hin : ∀ i v, ¬ k.Edge i v o.start := by
    intro i v he
    rcases hf.ext.new i v o.start he with he | ⟨-, hle⟩
    · exact hsealed.not_entered i v he
    · omega
  have hout : ∀ v j, ¬ k.Edge o.accept v j := by
    intro v j he
    rcases hf.ext.new o.accept v j he with he | ⟨hle, -⟩
    · exact hsealed.not_left v j he
    · omega
  refine ⟨⟨?_, ?_, hostart, ?_, hoaccept, ?_, ho.start_ne_accept, ?_⟩, ?_, ?_⟩
  · exact ((ho.ext.trans hf.ext).addSilent hostart (by omega)).addSilent (by omega) hoaccept
  · refine Bounded.addSilent (hf.bounded.addSilent (by omega) (by omega)) ?_ ?_
    · change f.accept < k.size
      omega
    · change o.accept < k.size
      omega
  · change o.start < k.size
    omega
  · change o.accept < k.size
    omega
  · have hP : k.Separated m.size :=
      hf.ext.separated (Nat.le_refl _) ho.bounded.separated
    have hkeep : between k.Edge o.start o.accept = L := by
      ext w
      exact ho.leads_iff hf.ext w
    rw [between_enclose (P := fun i => m.size ≤ i) hP hfstart hfaccept (by omega) (by omega)
      ho.start_ne_accept hin hout, hkeep, hf.between_eq]
  · intro i v he
    rcases (edge_enclose k o f i v o.start).1 he with he | ⟨-, -, heq⟩ | ⟨-, -, heq⟩
    · exact hin i v he
    · omega
    · exact ho.start_ne_accept heq
  · intro v j he
    rcases (edge_enclose k o f o.accept v j).1 he with he | ⟨heq, -, -⟩ | ⟨heq, -, -⟩
    · exact hout v j he
    · exact ho.start_ne_accept heq.symm
    · omega

end Net

/-! ## Expressions -/

namespace Regex

open Net

open scoped Computability

theorem language_char (c : Char) : (Regex.char c).language = {literalWord c} := by
  rw [language]
  by_cases hc : c = epsilonChar
  · rw [if_pos hc, literalWord, if_pos hc]
    rfl
  · rw [if_neg hc, literalWord, if_neg hc]

mutual

/-- The fragment of an expression lets through the words of the expression. -/
theorem realises_addTo : ∀ (r : Regex) {n : Net}, n.Bounded →
    Realises n (addTo n r).2 (addTo n r).1 r.language
  | .empty, n, hn => by
      rw [addTo, language]
      exact realises_addEmpty hn
  | .char c, n, hn => by
      rw [addTo, language_char]
      exact realises_addChar hn c
  | .concat parts, n, hn => by
      obtain ⟨hext, hbounded, hlaid⟩ := laid_addParts parts hn
      rw [addTo, language]
      cases hfs : (addParts n parts).1 with
      | nil =>
          rw [hfs] at hlaid
          cases hlaid
          exact (realises_addEmpty hbounded).of_extends hext
      | cons f fs =>
          rw [hfs] at hlaid
          cases parts with
          | nil => cases hlaid
          | cons r rs => exact realises_sequence hext hbounded hlaid
  | .alt parts, n, hn => by
      obtain ⟨hrealises, hsealed⟩ := realises_addFragment hn
      rw [addTo, language, ← zero_add (languageOfAny parts)]
      exact realises_addChoices parts hrealises hsealed
  | .many body, n, hn => by
      rw [addTo, language]
      exact (realises_addTo body hn).star
  | .many1 body, n, hn => by
      rw [addTo, language]
      exact (realises_addTo body hn).plus

/-- The fragments of the parts of a sequence are laid out one behind the other. -/
theorem laid_addParts : ∀ (rs : List Regex) {n : Net}, n.Bounded →
    n.Extends (addParts n rs).2 ∧ (addParts n rs).2.Bounded ∧
      Laid (addParts n rs).2 n.size (addParts n rs).1 rs
  | [], n, hn => by
      rw [addParts]
      exact ⟨.rfl n, hn, .nil _⟩
  | r :: rs, n, hn => by
      have hr := realises_addTo r hn
      obtain ⟨hext, hbounded, hlaid⟩ := laid_addParts rs hr.bounded
      have hsep : (addParts (addTo n r).2 rs).2.Separated (addTo n r).2.size :=
        hext.separated (Nat.le_refl _) hr.bounded.separated
      rw [addParts]
      refine ⟨hr.ext.trans hext, hbounded, ?_⟩
      refine .cons ⟨hr.le_start, hr.start_lt⟩ ⟨hr.le_accept, hr.accept_lt⟩ hr.start_ne_accept
        hext.size_le hsep ?_ hlaid
      ext w
      exact hr.leads_iff hext w

/-- The fragment of a choice lets through the words of its parts as well. -/
theorem realises_addChoices : ∀ (rs : List Regex) {n m : Net} {o : Fragment}
    {L : Language Char}, Realises n m o L → Sealed m o →
      Realises n (addChoices m o rs) o (L + languageOfAny rs)
  | [], n, m, o, L, ho, _ => by
      rw [addChoices, languageOfAny_nil, add_zero]
      exact ho
  | r :: rs, n, m, o, L, ho, hsealed => by
      obtain ⟨hnext, hsealed'⟩ := ho.enclose hsealed (realises_addTo r ho.bounded)
      rw [addChoices, languageOfAny_cons, ← add_assoc]
      exact realises_addChoices rs hnext hsealed'

end

end Regex

end FiniteState
