import Mathlib.Logic.Relation
import FiniteState.Proofs.Regex.Grammar
import FiniteState.Regex.Printer

/-!
# Expressions are written as they are read

An expression is written with parentheses in some places and without them in others, by a look
at the root of each part alone. `Legible` says that this is enough: what is written for an
expression is read as the expression where it stands, be it an operand, a side of a bar or the
whole text. In the other direction, a text that is read as an expression holds at least the
parentheses that the expression is written with: `parse_display` says that writing only takes
pairs of parentheses out of a text. No pair is taken out in halves, so the pairs are found by
`Balanced` and not by counting.
-/

namespace FiniteState.Regex

/-! ## What a text is read as -/

/-- The text is that of an operand that is read as `x`. -/
def OperandOf (s : List Char) (x : Regex) : Prop := ∃ r, OperandText s r ∧ r.collapse = x

/-- The text is that of a sequence that is read as `x`. -/
def SequenceOf (s : List Char) (x : Regex) : Prop :=
  ∃ parts, SequenceText s parts ∧ sequence (parts.map collapse) = x

/-- The text is that of a choice that is read as `x`. -/
def ChoiceOf (s : List Char) (x : Regex) : Prop :=
  ∃ choices, ChoiceText s choices ∧ choice (choices.map collapse) = x

section

variable {s : List Char} {x : Regex}

/-- An operand is a sequence of its own. -/
theorem OperandOf.sequenceOf (h : OperandOf s x) : SequenceOf s x := by
  obtain ⟨r, hs, rfl⟩ := h
  exact ⟨[r], .one hs, rfl⟩

/-- A sequence is a choice of its own. -/
theorem SequenceOf.choiceOf (h : SequenceOf s x) : ChoiceOf s x := by
  obtain ⟨parts, hs, rfl⟩ := h
  exact ⟨[.concat parts], .one hs, collapse_concat parts⟩

/-- A choice in parentheses is an operand. -/
theorem ChoiceOf.operandOf (h : ChoiceOf s x) : OperandOf ('(' :: (s ++ [')'])) x := by
  obtain ⟨choices, hs, rfl⟩ := h
  exact ⟨.alt choices, .group hs, collapse_alt choices⟩

theorem Quantifies.operandOf {sign : Char} {quantifier : Regex → Regex}
    (hq : Quantifies sign quantifier) (h : OperandOf s x) :
    OperandOf (s ++ [sign]) (quantifier x) := by
  obtain ⟨r, hs, rfl⟩ := h
  exact ⟨quantifier r, hq.operandText hs, hq.collapse_eq r⟩

end

/-! ## What is written is read -/

theorem renderAlt_cons (part : Regex) {parts : List Regex} (hne : parts ≠ []) :
    renderAlt (part :: parts) = parenthesised part.isAlt part.render ++ '|' :: renderAlt parts := by
  rw [renderAlt]
  exact hne

/-- An expression can be read wherever it is written. -/
structure Legible (r : Regex) : Prop where
  /-- As a part of a sequence, or before a sign of repetition. -/
  operand : OperandOf (parenthesised r.isCompound r.render) r.collapse
  /-- As a part of a choice. -/
  sequence : SequenceOf (parenthesised r.isAlt r.render) r.collapse
  /-- As the whole text. -/
  choice : ChoiceOf r.render r.collapse

theorem exists_sequenceText {parts : List Regex} (hne : parts ≠ [])
    (h : ∀ r ∈ parts, Legible r) :
    ∃ ds, SequenceText (renderConcat parts) ds ∧ ds.map collapse = parts.map collapse := by
  induction parts with
  | nil => exact absurd rfl hne
  | cons part parts ih =>
      obtain ⟨hpart, hparts⟩ := List.forall_mem_cons.1 h
      obtain ⟨d, hd, hcollapse⟩ := hpart.operand
      rw [renderConcat]
      by_cases hnil : parts = []
      · subst hnil
        refine ⟨[d], ?_, by rw [List.map_singleton, hcollapse, List.map_singleton]⟩
        rw [renderConcat, List.append_nil]
        exact .one hd
      · obtain ⟨ds, hds, hmap⟩ := ih hnil hparts
        exact ⟨d :: ds, .cons hd hds, by rw [List.map_cons, hcollapse, hmap, List.map_cons]⟩

theorem exists_choiceText {parts : List Regex} (hne : parts ≠ [])
    (h : ∀ r ∈ parts, Legible r) :
    ∃ ds, ChoiceText (renderAlt parts) ds ∧ ds.map collapse = parts.map collapse := by
  induction parts with
  | nil => exact absurd rfl hne
  | cons part parts ih =>
      obtain ⟨hpart, hparts⟩ := List.forall_mem_cons.1 h
      obtain ⟨ps, hps, hsequence⟩ := hpart.sequence
      have hcollapse : (Regex.concat ps).collapse = part.collapse := by
        rw [collapse_concat, hsequence]
      by_cases hnil : parts = []
      · subst hnil
        rw [renderAlt]
        exact ⟨[.concat ps], .one hps, by rw [List.map_singleton, hcollapse, List.map_singleton]⟩
      · obtain ⟨ds, hds, hmap⟩ := ih hnil hparts
        rw [renderAlt_cons part hnil]
        exact ⟨.concat ps :: ds, .cons hps hds, by
          rw [List.map_cons, hcollapse, hmap, List.map_cons]⟩

theorem Quantifies.legible {sign : Char} {quantifier : Regex → Regex}
    (hq : Quantifies sign quantifier) {body : Regex} (h : Legible body) :
    Legible (quantifier body) := by
  have hoperand := hq.operandOf h.operand
  cases hq with
  | many => exact ⟨hoperand, hoperand.sequenceOf, hoperand.sequenceOf.choiceOf⟩
  | many1 => exact ⟨hoperand, hoperand.sequenceOf, hoperand.sequenceOf.choiceOf⟩

/-- Trees of literals in which nothing is empty are legible. -/
theorem Proper.legible {r : Regex} (h : Proper 1 r) : Legible r := by
  induction h with
  | char c hc =>
      have hoperand : OperandOf [c] (.char c) := ⟨.char c, .char c hc, rfl⟩
      exact ⟨hoperand, hoperand.sequenceOf, hoperand.sequenceOf.choiceOf⟩
  | concat parts hlen _ ih =>
      obtain ⟨ds, hds, hmap⟩ := exists_sequenceText (List.length_pos_iff.1 hlen) ih
      have hsequence : SequenceOf (renderConcat parts) (Regex.concat parts).collapse :=
        ⟨ds, hds, by rw [hmap, collapse_concat]⟩
      exact ⟨hsequence.choiceOf.operandOf, hsequence, hsequence.choiceOf⟩
  | alt parts hlen _ ih =>
      obtain ⟨ds, hds, hmap⟩ := exists_choiceText (List.length_pos_iff.1 hlen) ih
      have hchoice : ChoiceOf (renderAlt parts) (Regex.alt parts).collapse :=
        ⟨ds, hds, by rw [hmap, collapse_alt]⟩
      exact ⟨hchoice.operandOf, hchoice.operandOf.sequenceOf, hchoice⟩
  | many body _ ih => exact Quantifies.many.legible ih
  | many1 body _ ih => exact Quantifies.many1.legible ih

theorem toList_display (r : Regex) : r.display.toList = r.render :=
  String.toList_ofList

/-- What is written for a tree is read as the tree without nodes of one part. -/
theorem Proper.parse_display_eq {r : Regex} (h : Proper 1 r) :
    parse r.display = .ok r.collapse := by
  obtain ⟨choices, hs, hchoice⟩ := h.legible.choice
  have hparse := (parseChars_eq_ok_iff hs.ne_nil r.collapse).2
    ⟨.alt choices, .intro hs, by rw [collapse_alt, hchoice]⟩
  rw [parse, toList_display, hparse]

/-! ## Pairs of parentheses -/

/-- A text without one of its pairs of parentheses. -/
inductive DropsPair : List Char → List Char → Prop
  | intro (before : List Char) {s : List Char} (hs : Balanced s) (behind : List Char) :
      DropsPair (before ++ '(' :: (s ++ ')' :: behind)) (before ++ (s ++ behind))

/-- A text without some of its pairs of parentheses, of which there may be none. -/
abbrev DropsPairs : List Char → List Char → Prop := Relation.ReflTransGen DropsPair

namespace DropsPairs

variable {s s' t t' u : List Char}

theorem trans (hst : DropsPairs s t) (htu : DropsPairs t u) : DropsPairs s u :=
  Relation.ReflTransGen.trans hst htu

/-- What stands around a text stays. -/
theorem around (before behind : List Char) (h : DropsPairs s t) :
    DropsPairs (before ++ (s ++ behind)) (before ++ (t ++ behind)) := by
  induction h with
  | refl => exact .refl
  | tail _ huv ih =>
      obtain ⟨before', hs, behind'⟩ := huv
      have hdrop := DropsPair.intro (before ++ before') hs (behind' ++ behind)
      simp only [List.append_assoc, List.cons_append] at hdrop ih ⊢
      exact ih.tail hdrop

theorem append (hs : DropsPairs s s') (ht : DropsPairs t t') :
    DropsPairs (s ++ t) (s' ++ t') := by
  have hleft := hs.around [] t
  have hright := ht.around s' []
  simp only [List.nil_append, List.append_nil] at hleft hright
  exact hleft.trans hright

theorem cons (c : Char) (h : DropsPairs s t) : DropsPairs (c :: s) (c :: t) := by
  have hafter := h.around [c] []
  simpa only [List.append_nil, List.singleton_append] using hafter

theorem ungroup (hs : Balanced s) : DropsPairs ('(' :: (s ++ [')'])) s := by
  have hdrop := DropsPair.intro [] hs []
  simp only [List.nil_append, List.append_nil] at hdrop
  exact .single hdrop

/-- Parentheses may be left out of place, but not put in. -/
theorem parenthesised (grouped grouped' : Bool) (hs : Balanced s)
    (hle : grouped' = true → grouped = true) :
    DropsPairs (parenthesised grouped s) (Regex.parenthesised grouped' s) := by
  cases grouped with
  | false =>
      cases grouped' with
      | false => exact .refl
      | true => exact absurd (hle rfl) Bool.false_ne_true
  | true =>
      cases grouped' with
      | false => exact ungroup hs
      | true => exact .refl

/-- A text becomes no longer, however the characters are measured. -/
theorem le_of_append (h : DropsPairs s t) (size : List Char → Nat)
    (hsize : ∀ s t, size (s ++ t) = size s + size t) : size t ≤ size s := by
  induction h with
  | refl => exact Nat.le_refl _
  | tail _ huv ih =>
      refine Nat.le_trans ?_ ih
      obtain ⟨before, hs, behind⟩ := huv
      rw [← List.singleton_append, ← List.singleton_append (l := behind)]
      simp only [hsize]
      omega

end DropsPairs

/-! ## Texts hold the parentheses that are written -/

theorem Proper.balanced_render {r : Regex} (h : Proper 1 r) : Balanced r.render := by
  obtain ⟨choices, hs, -⟩ := h.legible.choice
  exact hs.balanced

theorem balanced_render_of_mem_map {parts : List Regex} (h : ∀ r ∈ parts, Proper 1 r) :
    ∀ r ∈ parts.map collapse, Balanced r.render := by
  rw [List.forall_mem_map]
  exact fun r hr => ((proper_collapse (h r hr)).mono (by decide)).balanced_render

/-- A sequence of one part is written with no more parentheses than the part. -/
theorem dropsPairs_sequence (parts : List Regex) (h : ∀ r ∈ parts, Balanced r.render) :
    DropsPairs (renderConcat parts)
      (parenthesised (sequence parts).isAlt (sequence parts).render) := by
  match parts with
  | [] => exact .refl
  | [r] =>
      rw [renderConcat, renderConcat, List.append_nil, sequence_singleton]
      refine .parenthesised r.isCompound r.isAlt (h r List.mem_cons_self) fun halt => ?_
      cases r with
      | alt => rfl
      | _ => cases halt
  | _ :: _ :: _ => exact .refl

/-- A choice of one part is written with no more parentheses than the part. -/
theorem dropsPairs_choice (parts : List Regex) (h : ∀ r ∈ parts, Balanced r.render) :
    DropsPairs (renderAlt parts) (choice parts).render := by
  match parts with
  | [] => exact .refl
  | [r] =>
      rw [renderAlt, choice_singleton]
      exact .parenthesised r.isAlt false (h r List.mem_cons_self) fun hfalse => by cases hfalse
  | _ :: _ :: _ => exact .refl

mutual

/-- The text of a choice holds all that is written for its parts. -/
theorem ChoiceText.dropsPairs : ∀ {s : List Char} {choices : List Regex},
    ChoiceText s choices → DropsPairs s (renderAlt (choices.map collapse))
  | _, _, @ChoiceText.one s parts h => by
      rw [List.map_singleton, renderAlt, collapse_concat]
      exact h.dropsPairs.trans (dropsPairs_sequence _ (balanced_render_of_mem_map h.proper))
  | _, _, @ChoiceText.cons s t parts choices h ht => by
      have hne : choices.map collapse ≠ [] := by simpa using ht.choices_ne_nil
      rw [List.map_cons, renderAlt_cons _ hne, collapse_concat]
      have hfirst := h.dropsPairs.trans
        (dropsPairs_sequence _ (balanced_render_of_mem_map h.proper))
      exact hfirst.append (ht.dropsPairs.cons '|')

/-- The text of a sequence holds all that is written for its parts. -/
theorem SequenceText.dropsPairs : ∀ {s : List Char} {parts : List Regex},
    SequenceText s parts → DropsPairs s (renderConcat (parts.map collapse))
  | _, _, .one h => by
      rw [List.map_singleton, renderConcat, renderConcat, List.append_nil]
      exact h.dropsPairs
  | _, _, .cons h ht => by
      rw [List.map_cons, renderConcat]
      exact h.dropsPairs.append ht.dropsPairs

/-- The text of an operand holds all that is written for it. -/
theorem OperandText.dropsPairs : ∀ {s : List Char} {r : Regex}, OperandText s r →
    DropsPairs s (parenthesised r.collapse.isCompound r.collapse.render)
  | _, _, .char c hc => .refl
  | _, _, @OperandText.group s choices h => by
      have hinner := h.dropsPairs.trans
        (dropsPairs_choice _ (balanced_render_of_mem_map h.proper))
      have hbalanced : Balanced (Regex.alt choices).collapse.render :=
        ((proper_collapse (OperandText.group h).proper).mono (by decide)).balanced_render
      rw [← collapse_alt] at hinner
      exact ((hinner.append .refl).cons '(').trans
        (DropsPairs.parenthesised true _ hbalanced fun _ => rfl)
  | _, _, .many h => by
      rw [collapse]
      exact h.dropsPairs.append .refl
  | _, _, .many1 h => by
      rw [collapse]
      exact h.dropsPairs.append .refl

end

/-- A text that is read as an expression holds all that is written for the expression. -/
theorem dropsPairs_of_parse {source : String} {r : Regex} (h : parse source = .ok r) :
    DropsPairs source.toList r.display.toList := by
  rw [toList_display]
  by_cases hnil : source.toList = []
  · rw [parse, hnil, parseChars_nil, Except.ok.injEq] at h
    subst h
    rw [hnil]
    exact .refl
  · obtain ⟨t, ⟨hs⟩, rfl⟩ := (parseChars_eq_ok_iff hnil r).1 h
    rw [collapse_alt]
    exact hs.dropsPairs.trans (dropsPairs_choice _ (balanced_render_of_mem_map hs.proper))

theorem parse_display_of_parse {source : String} {r : Regex} (h : parse source = .ok r) :
    parse r.display = .ok r := by
  by_cases hnil : source.toList = []
  · rw [parse, hnil, parseChars_nil, Except.ok.injEq] at h
    subst h
    rfl
  · obtain ⟨t, ht, rfl⟩ := (parseChars_eq_ok_iff hnil r).1 h
    have hproper := proper_collapse ht.proper
    rw [(hproper.mono (by decide)).parse_display_eq, collapse_eq_self hproper]

theorem utf8ByteSize_ofList_append (s t : List Char) : (String.ofList (s ++ t)).utf8ByteSize =
    (String.ofList s).utf8ByteSize + (String.ofList t).utf8ByteSize := by
  rw [String.ofList_append, String.utf8ByteSize_append]

/-- What is written for a tree of literals in which no sequence and no choice is empty is read as
the tree without nodes of one part. So every expression that is read from a text is read again
from what is written for it. This is the text without some of its pairs of parentheses, and no
text of the expression has fewer characters or bytes. -/
theorem parse_display :
    (∀ r : Regex, r.Proper 1 → parse r.display = .ok r.collapse) ∧
    ∀ source r, parse source = .ok r →
      parse r.display = .ok r ∧ DropsPairs source.toList r.display.toList ∧
        ∀ other, parse other = .ok r →
          r.display.length ≤ other.length ∧ r.display.utf8ByteSize ≤ other.utf8ByteSize := by
  refine ⟨fun r hr => hr.parse_display_eq, fun source r h => ?_⟩
  refine ⟨parse_display_of_parse h, dropsPairs_of_parse h, fun other hother => ?_⟩
  have hdrops := dropsPairs_of_parse hother
  constructor
  · have hle := hdrops.le_of_append List.length fun _ _ => List.length_append
    rwa [String.length_toList, String.length_toList] at hle
  · have hle := hdrops.le_of_append (fun s => (String.ofList s).utf8ByteSize)
      utf8ByteSize_ofList_append
    rwa [String.ofList_toList, String.ofList_toList] at hle

/-- Parentheses around a choice stay, those around one literal do not. -/
theorem parse_display_grouped :
    (Proper 1 (.concat [.alt [.char 'a', .char 'b'], .many (.concat [.char 'c'])]) ∧
      parse "(a|b)(c)*" = .ok (.concat [.alt [.char 'a', .char 'b'], .many (.char 'c')])) ∧
    parse "(a|b)c*" = .ok (.concat [.alt [.char 'a', .char 'b'], .many (.char 'c')]) ∧
      DropsPairs "(a|b)(c)*".toList "(a|b)c*".toList := by
  have hchar : ∀ c, isOperator c = false → Proper 1 (.char c) := .char
  have hproper : Proper 1 (.concat [.alt [.char 'a', .char 'b'], .many (.concat [.char 'c'])]) := by
    refine .concat _ (by decide) (List.forall_mem_cons.2 ⟨.alt _ (by decide) ?_,
      List.forall_mem_singleton.2 (.many _ (.concat _ (by decide) ?_))⟩)
    · exact List.forall_mem_cons.2 ⟨hchar 'a' (by decide),
        List.forall_mem_singleton.2 (hchar 'b' (by decide))⟩
    · exact List.forall_mem_singleton.2 (hchar 'c' (by decide))
  have hparse := parse_display.1 _ hproper
  have hagain := parse_display.2 _ _ hparse
  exact ⟨⟨hproper, hparse⟩, hagain.1, hagain.2.1⟩

end FiniteState.Regex
