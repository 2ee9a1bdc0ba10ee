import FiniteState.Regex.Collapse
import FiniteState.Regex.Grammar
import FiniteState.Regex.Parser

/-!
# Reading is deriving

The parser keeps a stack of groups and never looks back, the grammar is a relation between
texts and trees. `parse_eq_ok_iff_derives` says that both give the same trees, up to nodes with
one part, which the grammar has and the parser leaves out.

From the grammar to the parser, the first pass needs no more than balanced parentheses. For the
second, the induction is on the derivation: whatever surrounds the text of an operand, reading it
pushes the tree of the operand, so the rest of the text and the outer groups are left open. From
the parser to the grammar, the induction is on the rest of the text. What has been read of a group
is then not yet a text of the grammar, since operands may still be missing beside its bars;
`LevelText` and `StackText` say what it is.
-/

namespace FiniteState.Regex

/-! ## Single characters -/

/-- The length of a text in bytes of UTF-8. -/
def byteLength : List Char → Nat
  | [] => 0
  | c :: cs => c.utf8Size + byteLength cs

@[simp] theorem byteLength_nil : byteLength [] = 0 := rfl

@[simp] theorem byteLength_cons (c : Char) (cs : List Char) :
    byteLength (c :: cs) = c.utf8Size + byteLength cs := rfl

@[simp] theorem byteLength_append (cs ds : List Char) :
    byteLength (cs ++ ds) = byteLength cs + byteLength ds := by
  induction cs with
  | nil => simp
  | cons c cs ih => simp [ih, Nat.add_assoc]

theorem utf8ByteSize_ofList (cs : List Char) : (String.ofList cs).utf8ByteSize = byteLength cs := by
  induction cs with
  | nil => rfl
  | cons c cs ih =>
      rw [String.ofList_cons, String.utf8ByteSize_append, String.utf8ByteSize_singleton, ih,
        byteLength_cons]

/-- No literal is one of the characters with a meaning of their own. -/
theorem ne_of_isOperator_eq_false {c : Char} (hc : isOperator c = false) :
    c ≠ '(' ∧ c ≠ ')' ∧ c ≠ '*' ∧ c ≠ '+' ∧ c ≠ '|' := by
  simp only [isOperator, Bool.or_eq_false_iff, beq_eq_false_iff_ne] at hc
  obtain ⟨⟨⟨⟨hmany, hmany1⟩, hbar⟩, hopen⟩, hclose⟩ := hc
  exact ⟨hopen, hclose, hmany, hmany1, hbar⟩

/-- The signs of repetitions, and what they make of the operand before them. -/
inductive Quantifies : Char → (Regex → Regex) → Prop
  | many : Quantifies '*' .many
  | many1 : Quantifies '+' .many1

theorem Quantifies.operandText {sign : Char} {quantifier : Regex → Regex}
    (hq : Quantifies sign quantifier) {s : List Char} {r : Regex} (h : OperandText s r) :
    OperandText (s ++ [sign]) (quantifier r) := by
  cases hq with
  | many => exact .many h
  | many1 => exact .many1 h

theorem Quantifies.collapse_eq {sign : Char} {quantifier : Regex → Regex}
    (hq : Quantifies sign quantifier) (r : Regex) :
    (quantifier r).collapse = quantifier r.collapse := by
  cases hq with
  | many => rw [collapse]
  | many1 => rw [collapse]

/-- What a character of a text may be. -/
theorem char_cases (c : Char) : c = '(' ∨ c = ')' ∨ c = '|' ∨
    (∃ quantifier, Quantifies c quantifier) ∨ isOperator c = false := by
  by_cases hc : isOperator c = true
  · simp only [isOperator, Bool.or_eq_true, beq_iff_eq] at hc
    rcases hc with (((rfl | rfl) | rfl) | rfl) | rfl
    · exact .inr (.inr (.inr (.inl ⟨_, .many⟩)))
    · exact .inr (.inr (.inr (.inl ⟨_, .many1⟩)))
    · exact .inr (.inr (.inl rfl))
    · exact .inl rfl
    · exact .inr (.inl rfl)
  · exact .inr (.inr (.inr (.inr (Bool.eq_false_iff.2 hc))))

section

variable (opened : List Nat) (offset : Nat) (cs : List Char)

theorem checkParens_open : checkParens opened offset ('(' :: cs) =
    checkParens (offset :: opened) (offset + '('.utf8Size) cs := by
  rw [checkParens.eq_def]
  rfl

theorem checkParens_close (start : Nat) : checkParens (start :: opened) offset (')' :: cs) =
    checkParens opened (offset + ')'.utf8Size) cs := by
  rw [checkParens.eq_def]
  rfl

theorem checkParens_close_nil :
    checkParens [] offset (')' :: cs) = .error ⟨.unopenedParen, .single offset⟩ := by
  rw [checkParens.eq_def]
  rfl

theorem checkParens_other {c : Char} (hopen : c ≠ '(') (hclose : c ≠ ')') :
    checkParens opened offset (c :: cs) = checkParens opened (offset + c.utf8Size) cs := by
  rw [checkParens.eq_def]
  simp only [hopen, hclose, if_false]

end

section

variable (outer : List (Nat × Level)) (level : Level) (offset : Nat) (cs : List Char)

theorem read_open : read outer level offset ('(' :: cs) =
    read ((offset, level) :: outer) .empty (offset + '('.utf8Size) cs := by
  rw [read.eq_def]
  rfl

theorem read_close_nil :
    read [] level offset (')' :: cs) = .error ⟨.unopenedParen, .single offset⟩ := by
  rw [read.eq_def]
  rfl

theorem read_close (start : Nat) (before : Level) :
    read ((start, before) :: outer) level offset (')' :: cs) =
      (level.close ⟨start, offset + 1⟩).bind fun group =>
        read outer (before.push group) (offset + ')'.utf8Size) cs := by
  rw [read.eq_def]
  cases h : level.close ⟨start, offset + 1⟩ with
  | error e => simp [h, Except.bind]
  | ok group => simp [h, Except.bind]

theorem read_sign {sign : Char} {quantifier : Regex → Regex}
    (hq : Quantifies sign quantifier) : read outer level offset (sign :: cs) =
      (level.repeatLast quantifier offset).bind fun level =>
        read outer level (offset + sign.utf8Size) cs := by
  cases hq with
  | many =>
      rw [read.eq_def]
      cases level.repeatLast .many offset <;> rfl
  | many1 =>
      rw [read.eq_def]
      cases level.repeatLast .many1 offset <;> rfl

theorem read_bar : read outer level offset ('|' :: cs) =
    read outer (level.bar offset) (offset + '|'.utf8Size) cs := by
  rw [read.eq_def]
  rfl

theorem read_literal {c : Char} (hc : isOperator c = false) :
    read outer level offset (c :: cs) =
      read outer (level.push (.char c)) (offset + c.utf8Size) cs := by
  obtain ⟨hopen, hclose, hmany, hmany1, hbar⟩ := ne_of_isOperator_eq_false hc
  rw [read.eq_def]
  simp only [hopen, hclose, hmany, hmany1, hbar, if_false]

end

/-! ## Levels -/

namespace Level

/-- The operands between the bars of a group, all in the order of the text. -/
def sides (l : Level) : List (List Regex) :=
  (l.bars.reverse.map fun b => b.2.reverse) ++ [l.run.reverse]

theorem sides_bar (l : Level) (offset : Nat) : (l.bar offset).sides = l.sides ++ [[]] := by
  simp [sides, bar]

/-- Pushes operands one after the other. -/
def pushAll (l : Level) (operands : List Regex) : Level := operands.foldl push l

theorem sides_push {l : Level} {before : List (List Regex)} {side : List Regex}
    (h : l.sides = before ++ [side]) (r : Regex) :
    (l.push r).sides = before ++ [side ++ [r]] := by
  obtain ⟨hbefore, hside⟩ := List.append_inj' h rfl
  rw [List.singleton_inj] at hside
  simp [sides, push, hbefore, hside]

theorem sides_pushAll {l : Level} {before : List (List Regex)} {side : List Regex}
    (h : l.sides = before ++ [side]) (operands : List Regex) :
    (l.pushAll operands).sides = before ++ [side ++ operands] := by
  induction operands generalizing l side with
  | nil =>
      rw [List.append_nil]
      exact h
  | cons r operands ih =>
      rw [pushAll, List.foldl_cons, ← pushAll, ih (sides_push h r), List.append_assoc]
      rfl

/-- A group is complete if there is an operand on all sides of its bars. -/
theorem close_eq_ok_iff (l : Level) (span : Span) (r : Regex) :
    l.close span = .ok r ↔ (∀ side ∈ l.sides, side ≠ []) ∧ r = choice (l.sides.map sequence) := by
  have hsides : (∀ side ∈ l.sides, side ≠ []) ↔
      l.bars.reverse.find? (fun b => b.2.isEmpty) = none ∧ l.run.isEmpty = false := by
    rw [sides, List.forall_mem_append, List.forall_mem_map, List.find?_eq_none]
    simp
  have hchoice : choice (l.sides.map sequence) =
      choice ((l.bars.reverse.map fun b => sequence b.2.reverse) ++ [sequence l.run.reverse]) := by
    rw [sides, List.map_append, List.map_map]
    rfl
  rw [hsides, hchoice, close]
  cases hfind : l.bars.reverse.find? fun b => b.2.isEmpty with
  | some b => simp
  | none =>
      cases hrun : l.run.isEmpty with
      | true => cases l.bars <;> simp
      | false => simp [eq_comm]

end Level

/-! ## Balanced texts -/

/-- Texts in which every parenthesis has its partner. -/
inductive Balanced : List Char → Prop
  | nil : Balanced []
  | char (c : Char) (hopen : c ≠ '(') (hclose : c ≠ ')') : Balanced [c]
  | append {s t : List Char} (hs : Balanced s) (ht : Balanced t) : Balanced (s ++ t)
  | group {s : List Char} (hs : Balanced s) : Balanced ('(' :: (s ++ [')']))

/-- The check of the parentheses passes over a balanced text. -/
theorem Balanced.checkParens_append {s : List Char} (h : Balanced s) (opened : List Nat)
    (offset : Nat) (rest : List Char) :
    checkParens opened offset (s ++ rest) = checkParens opened (offset + byteLength s) rest := by
  induction h generalizing opened offset rest with
  | nil => rfl
  | char c hopen hclose =>
      rw [List.singleton_append, checkParens_other _ _ _ hopen hclose]
      simp
  | append _ _ ihs iht => rw [List.append_assoc, ihs, iht, byteLength_append, Nat.add_assoc]
  | group _ ih =>
      rw [List.cons_append, List.append_assoc, checkParens_open, ih, List.singleton_append,
        checkParens_close]
      simp [Nat.add_assoc]

mutual

/-- The parentheses of a choice have their partners in it. -/
theorem ChoiceText.balanced : ∀ {s : List Char} {choices : List Regex},
    ChoiceText s choices → Balanced s
  | _, _, .one h => h.balanced
  | _, _, .cons h ht => h.balanced.append
      (.append (.char '|' (by decide) (by decide)) ht.balanced)

/-- The parentheses of a sequence have their partners in it. -/
theorem SequenceText.balanced : ∀ {s : List Char} {parts : List Regex},
    SequenceText s parts → Balanced s
  | _, _, .one h => h.balanced
  | _, _, .cons h ht => h.balanced.append ht.balanced

/-- The parentheses of an operand have their partners in it. -/
theorem OperandText.balanced : ∀ {s : List Char} {r : Regex}, OperandText s r → Balanced s
  | _, _, .char c hc => .char c (ne_of_isOperator_eq_false hc).1 (ne_of_isOperator_eq_false hc).2.1
  | _, _, .group h => .group h.balanced
  | _, _, .many h => h.balanced.append (.char '*' (by decide) (by decide))
  | _, _, .many1 h => h.balanced.append (.char '+' (by decide) (by decide))

end

/-! ## From the grammar to the parser -/

mutual

/-- Reading a choice behind a bar, or at the beginning of a group, completes what is read. -/
theorem ChoiceText.read_append : ∀ {s : List Char} {choices : List Regex},
    ChoiceText s choices → ∀ (level : Level) (before : List (List Regex)) (offset : Nat),
      level.sides = before ++ [[]] → ∃ (level' : Level) (sides : List (List Regex)),
        level'.sides = before ++ sides ∧ (∀ side ∈ sides, side ≠ []) ∧
          sides.map sequence = choices.map collapse ∧
          ∀ (outer : List (Nat × Level)) (rest : List Char),
            read outer level offset (s ++ rest) =
              read outer level' (offset + byteLength s) rest
  | _, _, @ChoiceText.one s parts h, level, before, offset, hlevel => by
      refine ⟨level.pushAll (parts.map collapse), [parts.map collapse],
        Level.sides_pushAll hlevel _, ?_, ?_,
        fun outer rest => h.read_append outer level offset rest⟩
      · simpa using h.parts_ne_nil
      · simp [collapse_concat]
  | _, _, @ChoiceText.cons s t parts choices h ht, level, before, offset, hlevel => by
      have hside : (level.pushAll (parts.map collapse)).sides =
          before ++ [parts.map collapse] := Level.sides_pushAll hlevel _
      obtain ⟨level', sides, hsides, hne, hchoices, hread⟩ := ht.read_append
        ((level.pushAll (parts.map collapse)).bar (offset + byteLength s))
        (before ++ [parts.map collapse]) (offset + byteLength s + '|'.utf8Size)
        (by rw [Level.sides_bar, hside])
      refine ⟨level', parts.map collapse :: sides, ?_, ?_, ?_, fun outer rest => ?_⟩
      · rw [hsides, List.append_assoc]
        rfl
      · rw [List.forall_mem_cons]
        exact ⟨by simpa using h.parts_ne_nil, hne⟩
      · rw [List.map_cons, hchoices, List.map_cons, collapse_concat]
      · rw [List.append_assoc, h.read_append, List.cons_append, read_bar, hread]
        simp [Nat.add_assoc]

/-- Reading a sequence pushes its parts. -/
theorem SequenceText.read_append : ∀ {s : List Char} {parts : List Regex},
    SequenceText s parts → ∀ (outer : List (Nat × Level)) (level : Level) (offset : Nat)
      (rest : List Char), read outer level offset (s ++ rest) =
        read outer (level.pushAll (parts.map collapse)) (offset + byteLength s) rest
  | _, _, .one h, outer, level, offset, rest => h.read_append outer level offset rest
  | _, _, .cons h ht, outer, level, offset, rest => by
      rw [List.append_assoc, h.read_append, ht.read_append, byteLength_append, Nat.add_assoc]
      rfl

/-- Reading an operand pushes it. -/
theorem OperandText.read_append : ∀ {s : List Char} {r : Regex},
    OperandText s r → ∀ (outer : List (Nat × Level)) (level : Level) (offset : Nat)
      (rest : List Char), read outer level offset (s ++ rest) =
        read outer (level.push r.collapse) (offset + byteLength s) rest
  | _, _, .char c hc, outer, level, offset, rest => by
      rw [List.singleton_append, read_literal _ _ _ _ hc, collapse]
      simp
  | _, _, @OperandText.group s choices h, outer, level, offset, rest => by
      obtain ⟨level', sides, hsides, hne, hchoices, hread⟩ :=
        h.read_append .empty [] (offset + '('.utf8Size) rfl
      rw [List.nil_append] at hsides
      have hclose : level'.close ⟨offset, offset + '('.utf8Size + byteLength s + 1⟩ =
          .ok (Regex.alt choices).collapse := by
        rw [Level.close_eq_ok_iff, hsides, hchoices, collapse_alt]
        exact ⟨hne, rfl⟩
      rw [List.cons_append, List.append_assoc, read_open, hread, List.singleton_append,
        read_close, hclose]
      simp [Except.bind, Nat.add_assoc]
  | _, _, .many h, outer, level, offset, rest => by
      rw [List.append_assoc, h.read_append, List.singleton_append, read_sign _ _ _ _ .many,
        collapse]
      simp [Level.push, Level.repeatLast, Except.bind, Nat.add_assoc]
  | _, _, .many1 h, outer, level, offset, rest => by
      rw [List.append_assoc, h.read_append, List.singleton_append, read_sign _ _ _ _ .many1,
        collapse]
      simp [Level.push, Level.repeatLast, Except.bind, Nat.add_assoc]

end

theorem checkParens_of_derives {s : List Char} {t : Regex} (h : Derives s t) :
    checkParens [] 0 s = .ok () := by
  obtain ⟨h⟩ := h
  rw [← List.append_nil s, h.balanced.checkParens_append]
  rfl

theorem read_of_derives {s : List Char} {t : Regex} (h : Derives s t) :
    read [] .empty 0 s = .ok t.collapse := by
  obtain ⟨h⟩ := h
  obtain ⟨level, sides, hsides, hne, hchoices, hread⟩ := h.read_append .empty [] 0 rfl
  rw [List.nil_append] at hsides
  rw [← List.append_nil s, hread, read, Level.close_eq_ok_iff, hsides, hchoices, collapse_alt]
  exact ⟨hne, rfl⟩

/-! ## From the parser to the grammar -/

/-- The text of the operands on one side of a bar, of which there may be none yet. -/
def SideText (s : List Char) (side : List Regex) : Prop :=
  (s = [] ∧ side = []) ∨ ∃ parts, SequenceText s parts ∧ side = parts.map collapse

theorem SideText.push {s t : List Char} {side : List Regex} {r : Regex} (hs : SideText s side)
    (ht : OperandText t r) : SideText (s ++ t) (side ++ [r.collapse]) := by
  rcases hs with ⟨rfl, rfl⟩ | ⟨parts, hs, rfl⟩
  · exact .inr ⟨[r], .one ht, rfl⟩
  · exact .inr ⟨parts ++ [r], hs.append (.one ht), by simp⟩

/-- The last operand of a sequence, and what is before it. -/
theorem SequenceText.exists_last {s : List Char} {parts : List Regex} (h : SequenceText s parts) :
    ∃ u v before r, s = u ++ v ∧ parts = before ++ [r] ∧ OperandText v r ∧
      SideText u (before.map collapse) := by
  induction parts generalizing s with
  | nil => exact absurd rfl h.parts_ne_nil
  | cons p parts ih =>
      cases h with
      | one h => exact ⟨[], s, [], p, rfl, rfl, h, .inl ⟨rfl, rfl⟩⟩
      | @cons s t _ _ h ht =>
          obtain ⟨u, v, before, r, rfl, rfl, hv, hu⟩ := ih ht
          refine ⟨s ++ u, v, p :: before, r, (List.append_assoc s u v).symm, rfl, hv, ?_⟩
          rcases hu with ⟨rfl, hnil⟩ | ⟨parts, hu, hparts⟩
          · refine .inr ⟨[p], ?_, ?_⟩
            · rw [List.append_nil]
              exact .one h
            · rw [List.map_cons, hnil, List.map_singleton]
          · exact .inr ⟨p :: parts, .cons h hu, by rw [List.map_cons, hparts, List.map_cons]⟩

/-- Repeating the last operand of a side is written behind it. -/
theorem SideText.repeatLast {s : List Char} {side : List Regex} {r : Regex} {sign : Char}
    {quantifier : Regex → Regex} (hs : SideText s (side ++ [r])) (hq : Quantifies sign quantifier) :
    SideText (s ++ [sign]) (side ++ [quantifier r]) := by
  rcases hs with ⟨-, hnil⟩ | ⟨parts, hs, hparts⟩
  · simp at hnil
  · obtain ⟨u, v, before, p, rfl, rfl, hv, hu⟩ := hs.exists_last
    rw [List.map_append, List.map_singleton] at hparts
    obtain ⟨rfl, hr⟩ := List.append_inj' hparts rfl
    obtain rfl := List.singleton_inj.1 hr
    rw [List.append_assoc, ← hq.collapse_eq]
    exact hu.push (hq.operandText hv)

/-- The text that has been read of a group. -/
inductive LevelText : List Char → Level → Prop
  | first {s : List Char} {run : List Regex} (h : SideText s run.reverse) :
      LevelText s ⟨[], run⟩
  | next {s t : List Char} {bars : List (Nat × List Regex)} {run run' : List Regex}
      {offset : Nat} (h : LevelText s ⟨bars, run⟩) (ht : SideText t run'.reverse) :
      LevelText (s ++ '|' :: t) ⟨(offset, run) :: bars, run'⟩

namespace LevelText

variable {s t : List Char} {l : Level}

theorem empty : LevelText [] .empty := .first (.inl ⟨rfl, rfl⟩)

theorem bar (h : LevelText s l) (offset : Nat) : LevelText (s ++ ['|']) (l.bar offset) :=
  .next h (.inl ⟨rfl, rfl⟩)

/-- What is written at the end of a group belongs to its last side. -/
theorem append {bars : List (Nat × List Regex)} {run run' : List Regex}
    (h : LevelText s ⟨bars, run⟩)
    (hlast : ∀ u, SideText u run.reverse → SideText (u ++ t) run'.reverse) :
    LevelText (s ++ t) ⟨bars, run'⟩ := by
  cases h with
  | first h => exact .first (hlast s h)
  | next h ht =>
      rw [List.append_assoc, List.cons_append]
      exact .next h (hlast _ ht)

theorem push (h : LevelText s l) {r : Regex} (ht : OperandText t r) :
    LevelText (s ++ t) (l.push r.collapse) := by
  obtain ⟨bars, run⟩ := l
  refine h.append fun u hu => ?_
  rw [List.reverse_cons]
  exact hu.push ht

theorem repeatLast {l' : Level} {offset : Nat} {sign : Char} {quantifier : Regex → Regex}
    (h : LevelText s l) (hq : Quantifies sign quantifier)
    (hl : l.repeatLast quantifier offset = .ok l') : LevelText (s ++ [sign]) l' := by
  obtain ⟨bars, run⟩ := l
  cases run with
  | nil => cases hl
  | cons r run =>
      cases hl
      refine h.append fun u hu => ?_
      rw [List.reverse_cons] at hu ⊢
      exact hu.repeatLast hq

end LevelText

theorem ChoiceText.choices_ne_nil {s : List Char} {choices : List Regex}
    (h : ChoiceText s choices) : choices ≠ [] := by
  cases h with
  | one => exact List.cons_ne_nil _ _
  | cons => exact List.cons_ne_nil _ _

theorem ChoiceText.append {s t : List Char} {choices parts : List Regex}
    (hs : ChoiceText s choices) (ht : SequenceText t parts) :
    ChoiceText (s ++ '|' :: t) (choices ++ [.concat parts]) := by
  induction choices generalizing s with
  | nil => cases hs
  | cons r choices ih =>
      cases hs with
      | one h => exact .cons h (.one ht)
      | cons h hrest =>
          rw [List.append_assoc, List.cons_append]
          exact .cons h (ih hrest)

theorem SideText.sequenceText {s : List Char} {side : List Regex} (h : SideText s side)
    (hne : side ≠ []) : ∃ parts, SequenceText s parts ∧ side = parts.map collapse := by
  rcases h with ⟨-, hnil⟩ | h
  · exact absurd hnil hne
  · exact h

/-- A complete group is a choice. -/
theorem LevelText.choiceText {s : List Char} {l : Level} (h : LevelText s l)
    (hne : ∀ side ∈ l.sides, side ≠ []) :
    ∃ choices, ChoiceText s choices ∧ l.sides.map sequence = choices.map collapse := by
  induction h with
  | @first s run h =>
      obtain ⟨parts, hs, hrun⟩ := h.sequenceText (hne _ (by simp [Level.sides]))
      refine ⟨[.concat parts], .one hs, ?_⟩
      simp [Level.sides, hrun, collapse_concat]
  | @next s t bars run run' offset h ht ih =>
      have hsides : (Level.mk ((offset, run) :: bars) run').sides =
          (Level.mk bars run).sides ++ [run'.reverse] := by
        simp [Level.sides]
      rw [hsides] at hne ⊢
      obtain ⟨choices, hs, hchoices⟩ := ih fun side hside => hne side (List.mem_append_left _ hside)
      obtain ⟨parts, ht, hrun⟩ := ht.sequenceText (hne _ (by simp))
      refine ⟨choices ++ [.concat parts], hs.append ht, ?_⟩
      rw [List.map_append, hchoices, List.map_append, hrun]
      simp [collapse_concat]

theorem LevelText.close {s : List Char} {l : Level} {span : Span} {r : Regex}
    (h : LevelText s l) (hl : l.close span = .ok r) :
    ∃ choices, ChoiceText s choices ∧ r = (Regex.alt choices).collapse := by
  obtain ⟨hne, rfl⟩ := (l.close_eq_ok_iff span r).1 hl
  obtain ⟨choices, hs, hchoices⟩ := h.choiceText hne
  exact ⟨choices, hs, by rw [collapse_alt, hchoices]⟩

/-- The text that has been read of the groups around a group, up to the parenthesis that opens
the group. -/
inductive StackText : List Char → List (Nat × Level) → Prop
  | nil : StackText [] []
  | cons {u s : List Char} {outer : List (Nat × Level)} {level : Level} {start : Nat}
      (hu : StackText u outer) (hs : LevelText s level) :
      StackText (u ++ s ++ ['(']) ((start, level) :: outer)

theorem exists_of_bind_eq_ok {ε α β : Type} {x : Except ε α} {f : α → Except ε β} {b : β}
    (h : x.bind f = .ok b) : ∃ a, x = .ok a ∧ f a = .ok b := by
  cases x with
  | error e => cases h
  | ok a => exact ⟨a, rfl, h⟩

theorem exists_of_bind_eq_error {ε α β : Type} {x : Except ε α} {f : α → Except ε β} {e : ε}
    (h : x.bind f = .error e) : x = .error e ∨ ∃ a, x = .ok a ∧ f a = .error e := by
  cases x with
  | error e' => exact .inl (by simpa [Except.bind] using h)
  | ok a => exact .inr ⟨a, rfl, h⟩

/-- A tree that is read off the rest of a text is the tree of the whole text. -/
theorem derives_of_read (cs : List Char) {outer : List (Nat × Level)} {level : Level}
    {offset : Nat} {u s : List Char} {r : Regex} (hu : StackText u outer)
    (hs : LevelText s level) (h : read outer level offset cs = .ok r) :
    ∃ t, Derives (u ++ s ++ cs) t ∧ r = t.collapse := by
  induction cs generalizing outer level offset u s with
  | nil =>
      cases hu with
      | nil =>
          rw [read] at h
          obtain ⟨choices, hs, rfl⟩ := hs.close h
          refine ⟨.alt choices, ?_, rfl⟩
          rw [List.nil_append, List.append_nil]
          exact .intro hs
      | cons => cases h
  | cons c cs ih =>
      have hmove : ∀ t : List Char, u ++ s ++ (t ++ cs) = u ++ (s ++ t) ++ cs := by
        intro t
        simp
      rcases char_cases c with rfl | rfl | rfl | ⟨quantifier, hq⟩ | hc
      case inl =>
        rw [read_open] at h
        have hall := ih (.cons hu hs) .empty h
        simpa using hall
      case inr.inl =>
        cases hu with
        | nil =>
            rw [read_close_nil] at h
            cases h
        | @cons u s' outer before start hu hbefore =>
            rw [read_close] at h
            obtain ⟨group, hgroup, h⟩ := exists_of_bind_eq_ok h
            obtain ⟨choices, hs, rfl⟩ := hs.close hgroup
            have hall := ih hu (hbefore.push (.group hs)) h
            simpa using hall
      case inr.inr.inl =>
        rw [read_bar] at h
        have hall := ih hu (hs.bar offset) h
        rwa [← hmove] at hall
      case inr.inr.inr.inl =>
        rw [read_sign _ _ _ _ hq] at h
        obtain ⟨level', hlevel, h⟩ := exists_of_bind_eq_ok h
        have hall := ih hu (hs.repeatLast hq hlevel) h
        rwa [← hmove] at hall
      case inr.inr.inr.inr =>
        rw [read_literal _ _ _ _ hc] at h
        have hall := ih hu (hs.push (.char c hc)) h
        rwa [← hmove] at hall

/-! ## The parser -/

mutual

theorem ChoiceText.proper : ∀ {s : List Char} {choices : List Regex},
    ChoiceText s choices → ∀ r ∈ choices, Proper 1 r
  | _, _, .one h => by
      rw [List.forall_mem_singleton]
      exact .concat _ (List.length_pos_iff.2 h.parts_ne_nil) h.proper
  | _, _, .cons h ht => by
      rw [List.forall_mem_cons]
      exact ⟨.concat _ (List.length_pos_iff.2 h.parts_ne_nil) h.proper, ht.proper⟩

theorem SequenceText.proper : ∀ {s : List Char} {parts : List Regex},
    SequenceText s parts → ∀ r ∈ parts, Proper 1 r
  | _, _, .one h => by
      rw [List.forall_mem_singleton]
      exact h.proper
  | _, _, .cons h ht => by
      rw [List.forall_mem_cons]
      exact ⟨h.proper, ht.proper⟩

theorem OperandText.proper : ∀ {s : List Char} {r : Regex}, OperandText s r → Proper 1 r
  | _, _, .char c hc => .char c hc
  | _, _, .group h => .alt _ (List.length_pos_iff.2 h.choices_ne_nil) h.proper
  | _, _, .many h => .many _ h.proper
  | _, _, .many1 h => .many1 _ h.proper

end

/-- The tree of a derivation has a part in every sequence and choice, and no operator. -/
theorem Derives.proper {s : List Char} {t : Regex} (h : Derives s t) : Proper 1 t := by
  obtain ⟨h⟩ := h
  exact .alt _ (List.length_pos_iff.2 h.choices_ne_nil) h.proper

/-- The two passes over a text that is not empty. -/
theorem parseChars_eq_bind {cs : List Char} (hne : cs ≠ []) :
    parseChars cs = (checkParens [] 0 cs).bind fun _ => read [] .empty 0 cs := by
  cases cs with
  | nil => exact absurd rfl hne
  | cons c cs =>
      cases h : checkParens [] 0 (c :: cs) with
      | error e => simp [parseChars, h, Except.bind]
      | ok u => simp [parseChars, h, Except.bind]

theorem parseChars_eq_ok_iff {cs : List Char} (hne : cs ≠ []) (r : Regex) :
    parseChars cs = .ok r ↔ ∃ t, Derives cs t ∧ r = t.collapse := by
  rw [parseChars_eq_bind hne]
  constructor
  · intro h
    obtain ⟨-, -, h⟩ := exists_of_bind_eq_ok h
    exact derives_of_read cs .nil .empty h
  · intro h
    obtain ⟨t, ht, rfl⟩ := h
    rw [checkParens_of_derives ht]
    exact read_of_derives ht

/-- Reading gives the empty expression for the empty text, and for any other text the trees of
its derivations without nodes of one part. Such a tree has no operator for a literal and at
least two parts in every sequence and choice. -/
theorem parse_eq_ok_iff_derives (source : String) :
    (∀ r, parse source = .ok r ↔
      (source = "" ∧ r = .empty) ∨ ∃ t, Derives source.toList t ∧ r = t.collapse) ∧
    (parse source = .ok .empty ↔ source = "") ∧
    ∀ r, parse source = .ok r → source = "" ∨ r.Proper 2 := by
  by_cases hsource : source = ""
  · subst hsource
    have hparse : parse "" = .ok .empty := rfl
    refine ⟨fun r => ?_, iff_of_true hparse rfl, fun r _ => .inl rfl⟩
    rw [hparse, Except.ok.injEq]
    constructor
    · exact fun hr => .inl ⟨rfl, hr.symm⟩
    · rintro (⟨-, hr⟩ | ⟨t, ht, -⟩)
      · exact hr.symm
      · exact absurd rfl ht.ne_nil
  · have hne : source.toList ≠ [] := fun hnil => hsource (String.toList_eq_nil_iff.1 hnil)
    have hparse : ∀ r, parse source = .ok r ↔ ∃ t, Derives source.toList t ∧ r = t.collapse :=
      fun r => parseChars_eq_ok_iff hne r
    have hproper : ∀ r, parse source = .ok r → r.Proper 2 := by
      intro r hr
      obtain ⟨t, ht, rfl⟩ := (hparse r).1 hr
      exact proper_collapse ht.proper
    refine ⟨fun r => ?_, ?_, fun r hr => .inr (hproper r hr)⟩
    · rw [hparse]
      simp [hsource]
    · refine iff_of_false (fun hempty => ?_) hsource
      cases hproper _ hempty

/-- A group keeps its own node, and the sign next to an operand is its innermost one. -/
example : parse "(ab)c*+|d" = .ok (.alt [.concat [.concat [.char 'a', .char 'b'],
    .many1 (.many (.char 'c'))], .char 'd']) := by
  rfl

end FiniteState.Regex
