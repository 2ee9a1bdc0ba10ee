import Mathlib.Computability.Language

/-!
# Labelled edges

`Leads E p w q` says that edges of `E` lead from `p` to `q` and that `w` is read on the
way. An edge reads a word of its own, which may be empty, so one relation serves numbered
nets, whose edges read one symbol at most, and named graphs, whose edges may read a whole
match of an expression.

The lemmas on parts of a graph all have the same form: what is known is how the edges that
leave a set of nodes look, and what follows is how a walk from that set looks. A loop is
taken apart at the edge that closes it, and a walk that leaves a part of a graph is taken
apart at the edge on which it leaves.
-/

namespace FiniteState

universe u v

/-- A relation between nodes, where each related pair reads a word. -/
abbrev Edges (σ : Type u) := σ → List Char → σ → Prop

/-- Walks along edges, and the words that are read on them. -/
inductive Leads {σ : Type u} (E : Edges σ) : σ → List Char → σ → Prop
  | nil (p : σ) : Leads E p [] p
  | cons {p q r : σ} {v w : List Char} (hv : E p v q) (hw : Leads E q w r) :
      Leads E p (v ++ w) r

/-- The words that lead from one node to another. -/
def between {σ : Type u} (E : Edges σ) (p q : σ) : Language Char := {w | Leads E p w q}

namespace Leads

open scoped Computability

variable {σ : Type u} {τ : Type v} {E F : Edges σ} {p q r : σ} {v w : List Char}

theorem mem_between (E : Edges σ) (p q : σ) (w : List Char) :
    w ∈ between E p q ↔ Leads E p w q := Iff.rfl

theorem single (h : E p w q) : Leads E p w q := by
  have hlast := Leads.cons h (Leads.nil q)
  rwa [List.append_nil] at hlast

theorem append (hv : Leads E p v q) (hw : Leads E q w r) : Leads E p (v ++ w) r := by
  induction hv with
  | nil => exact hw
  | cons he _ ih =>
      rw [List.append_assoc]
      exact .cons he (ih hw)

theorem mono (hle : ∀ p v q, E p v q → F p v q) (h : Leads E p w q) : Leads F p w q := by
  induction h with
  | nil p => exact .nil p
  | cons he _ ih => exact .cons (hle _ _ _ he) ih

theorem exists_first (h : Leads E p w q) (hne : p ≠ q) :
    ∃ v r u, w = v ++ u ∧ E p v r ∧ Leads E r u q := by
  cases h with
  | nil => exact absurd rfl hne
  | cons he hrest => exact ⟨_, _, _, rfl, he, hrest⟩

/-- If walks lead wherever edges do, they lead wherever walks do. -/
theorem of_edges (hle : ∀ p v q, E p v q → Leads F p v q) (h : Leads E p w q) :
    Leads F p w q := by
  induction h with
  | nil p => exact .nil p
  | cons he _ ih => exact (hle _ _ _ he).append ih

theorem congr (hEF : ∀ p v q, E p v q ↔ F p v q) : Leads E p w q ↔ Leads F p w q :=
  ⟨mono fun p v q => (hEF p v q).1, mono fun p v q => (hEF p v q).2⟩

/-- A walk along no edge reads nothing. -/
theorem eq_of_no_edge (hp : ∀ v r, ¬ E p v r) (h : Leads E p w q) : q = p ∧ w = [] := by
  cases h with
  | nil => exact ⟨rfl, rfl⟩
  | cons he _ => exact absurd he (hp _ _)

/-- A walk from a set whose edges stay in the set stays in it. -/
theorem confined {P : σ → Prop} (hE : ∀ p v q, P p → E p v q → P q ∧ F p v q)
    (hp : P p) (h : Leads E p w q) : P q ∧ Leads F p w q := by
  induction h with
  | nil p => exact ⟨hp, .nil p⟩
  | cons he _ ih =>
      obtain ⟨hq, hf⟩ := hE _ _ _ hp he
      obtain ⟨hr, hrest⟩ := ih hq
      exact ⟨hr, .cons hf hrest⟩

/-- Where two relations have the same edges from a set that these do not leave, the same
words lead on. -/
theorem iff_of_confined {P : σ → Prop} (hEF : ∀ p v q, P p → (E p v q ↔ F p v q))
    (hE : ∀ p v q, P p → E p v q → P q) (hp : P p) : Leads E p w q ↔ Leads F p w q := by
  constructor
  · intro h
    refine (confined (P := P) (fun p v q hp he => ?_) hp h).2
    exact ⟨hE p v q hp he, (hEF p v q hp).1 he⟩
  · intro h
    refine (confined (P := P) (fun p v q hp hf => ?_) hp h).2
    have he := (hEF p v q hp).2 hf
    exact ⟨hE p v q hp he, he⟩

/-- A walk out of a set that can be left on one silent edge only is a walk inside the set
to the beginning of that edge, and a walk from its end. -/
theorem escape {P : σ → Prop} {a b : σ}
    (hE : ∀ p v q, P p → E p v q → (P q ∧ F p v q) ∨ (p = a ∧ v = [] ∧ q = b))
    (hp : P p) (hq : ¬ P q) (h : Leads E p w q) :
    ∃ v u, w = v ++ u ∧ Leads F p v a ∧ Leads E b u q := by
  induction h with
  | nil p => exact absurd hp hq
  | @cons p p' q v w he hrest ih =>
      rcases hE _ _ _ hp he with ⟨hp', hf⟩ | ⟨rfl, rfl, rfl⟩
      · obtain ⟨v', u, rfl, hv', hu⟩ := ih hp' hq
        exact ⟨v ++ v', u, by rw [List.append_assoc], .cons hf hv', hu⟩
      · exact ⟨[], w, rfl, .nil p, hrest⟩

/-- A walk from outside of a set that cannot be entered to outside of a set that cannot be left
meets neither of them. -/
theorem avoid {P Q : σ → Prop} (hP : ∀ p v q, E p v q → P q → P p)
    (hQ : ∀ p v q, E p v q → Q p → Q q) (hF : ∀ p v q, E p v q → F p v q ∨ P p ∨ Q q)
    (hp : ¬ P p) (hq : ¬ Q q) (h : Leads E p w q) : Leads F p w q := by
  induction h with
  | nil p => exact .nil p
  | @cons p p' q v w he hrest ih =>
      have hp' : ¬ P p' := fun hin => hp (hP p v p' he hin)
      have hq' : ¬ Q p' := fun hin =>
        hq (confined (F := E) (fun p v q hp he => ⟨hQ p v q he hp, he⟩) hin hrest).1
      rcases hF p v p' he with hf | hin | hin
      · exact .cons hf (ih hp' hq)
      · exact absurd hin hp
      · exact absurd hin hq'

/-- Walks are carried along a relation between nodes, if edges are. -/
theorem simulate {R : σ → τ → Prop} {G : Edges τ}
    (hR : ∀ p x, R p x → ∀ v q, E p v q → ∃ y, R q y ∧ G x v y) {x : τ} (hx : R p x)
    (h : Leads E p w q) : ∃ y, R q y ∧ Leads G x w y := by
  induction h generalizing x with
  | nil p => exact ⟨x, hx, .nil x⟩
  | cons he _ ih =>
      obtain ⟨y, hy, hg⟩ := hR _ _ hx _ _ he
      obtain ⟨z, hz, hrest⟩ := ih hy
      exact ⟨z, hz, .cons hg hrest⟩

/-! ## Detours -/

/-- `F` has the edges of `E`, those of `I` in a region that `E` does not touch, silent edges from
`a` into the region to the nodes of `X`, and silent edges from the nodes of `Y` out to `b`. -/
structure Detour (E I F : Edges σ) (P X Y : σ → Prop) (a b : σ) : Prop where
  outside : ∀ {p v q}, E p v q → ¬ P p ∧ ¬ P q
  inside : ∀ {p v q}, I p v q → P p ∧ P q
  entry : ∀ {x}, X x → P x
  exit : ∀ {y}, Y y → P y
  ends : ¬ P a ∧ ¬ P b
  edge_iff : ∀ p v q, F p v q ↔ E p v q ∨ I p v q ∨ (p = a ∧ v = [] ∧ X q) ∨
    (Y p ∧ v = [] ∧ q = b)

/-- The words that lead through the region of a detour. -/
def through (I : Edges σ) (X Y : σ → Prop) : Language Char :=
  {w | ∃ x y, X x ∧ Y y ∧ Leads I x w y}

namespace Detour

variable {I : Edges σ} {P X Y : σ → Prop} {a b : σ}

/-- Beside a walk with detours there is one that takes an edge in place of each. A walk that
begins in the region leads to the end of this detour first. -/
theorem shortcut (h : Detour E I F P X Y a b) {G : Edges σ}
    (hG : ∀ p v q, G p v q ↔ E p v q ∨ (p = a ∧ v ∈ through I X Y ∧ q = b))
    (hq : ¬ P q) (hw : Leads F p w q) : (¬ P p → Leads G p w q) ∧
      (P p → ∃ v u y, w = v ++ u ∧ Y y ∧ Leads I p v y ∧ Leads G b u q) := by
  induction hw with
  | nil p => exact ⟨fun _ => .nil p, fun hp => absurd hp hq⟩
  | @cons p p' q v w he _ ih =>
      obtain ⟨houter, hinner⟩ := ih hq
      rcases (h.edge_iff p v p').1 he with hE | hI | ⟨rfl, rfl, hx⟩ | ⟨hy, rfl, rfl⟩
      · obtain ⟨hp, hp'⟩ := h.outside hE
        exact ⟨fun _ => .cons ((hG _ _ _).2 (.inl hE)) (houter hp'), fun hin => absurd hin hp⟩
      · obtain ⟨hp, hp'⟩ := h.inside hI
        obtain ⟨v', u, y, rfl, hy, hv, hu⟩ := hinner hp'
        refine ⟨fun hout => absurd hp hout, fun _ => ⟨v ++ v', u, y, ?_, hy, .cons hI hv, hu⟩⟩
        rw [List.append_assoc]
      · obtain ⟨v, u, y, rfl, hy, hv, hu⟩ := hinner (h.entry hx)
        have hacross := (hG p v b).2 (.inr ⟨rfl, ⟨p', y, hx, hy, hv⟩, rfl⟩)
        have hwalk := Leads.cons hacross hu
        exact ⟨fun _ => hwalk, fun hin => absurd hin h.ends.1⟩
      · refine ⟨fun hout => absurd (h.exit hy) hout, fun _ => ?_⟩
        exact ⟨[], w, p, rfl, hy, .nil p, houter h.ends.2⟩

/-- Between nodes outside of the region, a detour does what an edge does that reads what leads
through the region. -/
theorem leads_iff (h : Detour E I F P X Y a b) {G : Edges σ}
    (hG : ∀ p v q, G p v q ↔ E p v q ∨ (p = a ∧ v ∈ through I X Y ∧ q = b))
    (hp : ¬ P p) (hq : ¬ P q) : Leads F p w q ↔ Leads G p w q := by
  have hle : ∀ p v q, E p v q ∨ I p v q ∨ (p = a ∧ v = [] ∧ X q) ∨ (Y p ∧ v = [] ∧ q = b) →
      F p v q := fun p v q => (h.edge_iff p v q).2
  constructor
  · exact fun hw => (h.shortcut hG hq hw).1 hp
  · refine of_edges fun p v q hg => ?_
    rcases (hG p v q).1 hg with hE | ⟨rfl, ⟨x, y, hx, hy, hv⟩, rfl⟩
    · exact single (hle _ _ _ (.inl hE))
    · have hin : F p [] x := hle _ _ _ (.inr (.inr (.inl ⟨rfl, rfl, hx⟩)))
      have hout : F y [] q := hle _ _ _ (.inr (.inr (.inr ⟨hy, rfl, rfl⟩)))
      have hacross : Leads F x v y := mono (fun p v q hI => hle p v q (.inr (.inl hI))) hv
      have hwalk := (Leads.cons hin hacross).append (single hout)
      rwa [List.nil_append, List.append_nil] at hwalk

end Detour

/-! ## Loops -/

/-- Every repetition of a way from `a` to `b` leads from `b` to `b` if a silent edge leads
back to `a`. -/
theorem of_mem_kstar {a b : σ} (hback : E b [] a) (hw : w ∈ (between E a b)∗) :
    Leads E b w b := by
  obtain ⟨ws, rfl, hws⟩ := Language.mem_kstar.1 hw
  clear hw
  induction ws with
  | nil => exact .nil b
  | cons v ws ih =>
      rw [List.flatten_cons]
      have hv : Leads E a v b := hws v List.mem_cons_self
      have hrest : Leads E b ws.flatten b :=
        ih fun u hu => hws u (List.mem_cons_of_mem v hu)
      exact (Leads.cons hback hv).append hrest

theorem append_mem_kstar {L : Language Char} (hv : v ∈ L) (hw : w ∈ L∗) : v ++ w ∈ L∗ := by
  rw [← Language.one_add_self_mul_kstar_eq_kstar, Language.mem_add]
  exact .inr (Language.append_mem_mul hv hw)

/-- A silent edge from `b` back to `a` lets the ways from `a` to `b` be repeated. -/
theorem loop_iff {a b : σ} (hE : ∀ p v q, E p v q ↔ F p v q ∨ (p = b ∧ v = [] ∧ q = a)) :
    Leads E a w b ↔ w ∈ between F a b * (between F a b)∗ := by
  have hle : ∀ p v q, F p v q → E p v q := fun p v q hf => (hE p v q).2 (.inl hf)
  constructor
  · intro h
    -- Each use of the new edge begins a repetition; the walk before the first use is kept apart.
    suffices hsplit : ∀ p, Leads E p w b →
        ∃ v u, w = v ++ u ∧ Leads F p v b ∧ u ∈ (between F a b)∗ by
      obtain ⟨v, u, rfl, hv, hu⟩ := hsplit a h
      exact Language.append_mem_mul hv hu
    clear h
    intro p hp
    generalize hb : b = y at hp
    induction hp with
    | nil p => exact ⟨[], [], rfl, .nil p, Language.nil_mem_kstar _⟩
    | @cons p q y v w he hrest ih =>
        subst hb
        obtain ⟨v', u, rfl, hv', hu⟩ := ih rfl
        rcases (hE _ _ _).1 he with hf | ⟨rfl, rfl, rfl⟩
        · exact ⟨v ++ v', u, by rw [List.append_assoc], .cons hf hv', hu⟩
        · exact ⟨[], v' ++ u, rfl, .nil p, append_mem_kstar hv' hu⟩
  · intro h
    obtain ⟨v, hv, u, hu, rfl⟩ := Language.mem_mul.1 h
    have hback : E b [] a := (hE b [] a).2 (.inr ⟨rfl, rfl, rfl⟩)
    have hsub : between F a b ≤ between E a b := fun x hx => Leads.mono hle hx
    exact (Leads.mono hle hv).append (of_mem_kstar hback (kstar_mono hsub hu))

/-- Two silent edges, one back and one ahead, let the ways from `a` to `b` be repeated or
skipped, as long as no way leads back to `a` or on from `b`. -/
theorem loopOrSkip_iff {a b : σ} (ha : ∀ p v, ¬ F p v a) (hb : ∀ v q, ¬ F b v q)
    (hE : ∀ p v q, E p v q ↔
      F p v q ∨ (p = b ∧ v = [] ∧ q = a) ∨ (p = a ∧ v = [] ∧ q = b)) :
    Leads E a w b ↔ w ∈ (between F a b)∗ := by
  have hle : ∀ p v q, F p v q → E p v q := fun p v q hf => (hE p v q).2 (.inl hf)
  constructor
  · intro h
    -- The first part is a way to `b`, or nothing at all if the walk begins with a skip.
    suffices hsplit : ∀ p, Leads E p w b → ∃ v u, w = v ++ u ∧
        (Leads F p v b ∨ (p = a ∧ v = [])) ∧ u ∈ (between F a b)∗ by
      obtain ⟨v, u, rfl, hv | ⟨-, rfl⟩, hu⟩ := hsplit a h
      · exact append_mem_kstar hv hu
      · exact hu
    clear h
    intro p hp
    generalize hy : b = y at hp
    induction hp with
    | nil p => exact ⟨[], [], rfl, .inl (.nil p), Language.nil_mem_kstar _⟩
    | @cons p q y v w he hrest ih =>
        subst hy
        obtain ⟨v', u, rfl, hv', hu⟩ := ih rfl
        rcases (hE _ _ _).1 he with hf | ⟨rfl, rfl, rfl⟩ | ⟨rfl, rfl, rfl⟩
        · rcases hv' with hv' | ⟨rfl, -⟩
          · exact ⟨v ++ v', u, by rw [List.append_assoc], .inl (.cons hf hv'), hu⟩
          · exact absurd hf (ha _ _)
        · refine ⟨[], v' ++ u, rfl, .inl (.nil p), ?_⟩
          rcases hv' with hv' | ⟨-, rfl⟩
          · exact append_mem_kstar hv' hu
          · exact hu
        · refine ⟨[], v' ++ u, rfl, .inr ⟨rfl, rfl⟩, ?_⟩
          rcases hv' with hv' | ⟨-, rfl⟩
          · rw [(hv'.eq_of_no_edge hb).2]
            exact hu
          · exact hu
  · intro h
    have hskip : E a [] b := (hE a [] b).2 (.inr (.inr ⟨rfl, rfl, rfl⟩))
    have hback : E b [] a := (hE b [] a).2 (.inr (.inl ⟨rfl, rfl, rfl⟩))
    have hsub : between F a b ≤ between E a b := fun x hx => Leads.mono hle hx
    exact .cons hskip (of_mem_kstar hback (kstar_mono hsub h))

end Leads

end FiniteState
