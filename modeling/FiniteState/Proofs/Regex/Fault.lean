import FiniteState.Failure
import FiniteState.Proofs.Regex.Lacking

/-!
# Where an expression is at fault

`parse_eq_error` says which fault is found in a text that is no expression, and that the span of it
covers a place at which the fault can be seen: a parenthesis without a match, or a sign whose
operand is lacking. The texts with such a place are just those that cannot be read. The report of
the fault shows the text and marks the characters of the place.

For the operands, the induction is on the rest of the text, with the part that has been read before
it. Of a group it is kept where its bars without an operand before them are, and what the last
character is if there is no operand behind it: this is `GroupsRead`.
-/

namespace FiniteState.Regex

/-! ## Places of faults -/

/-- A fault can be seen at the text in the middle. -/
inductive FaultAt : Fault → List Char → List Char → List Char → Prop
  /-- It closes more than was opened, and nothing before it does. -/
  | unopened {before : List Char} (after : List Char) (hbefore : ¬ Overclosed before)
      (h : Overclosed (before ++ [')'])) : FaultAt .unopenedParen before [')'] after
  /-- It is not closed, and everything that is opened behind it is. -/
  | unclosed (before : List Char) {after : List Char} (h : ¬ Closed after)
      (hafter : ∀ v w, after = v ++ '(' :: w → Closed w) : FaultAt .unclosedParen before ['('] after
  | missing {before middle after : List Char} (h : Lacking before middle after) :
      FaultAt .missingOperand before middle after

/-- The bytes of a text, between others. -/
def spanOf (before middle : List Char) : Span :=
  ⟨byteLength before, byteLength before + byteLength middle⟩

/-- A span of one byte is that of a character of one byte. -/
theorem spanOf_singleton {c : Char} (hc : c.utf8Size = 1) (before : List Char) :
    spanOf before [c] = .single (byteLength before) := by
  rw [spanOf, byteLength_cons, hc, byteLength_nil, Span.single]

/-- An error that names a place of the text where it can be seen. -/
inductive Located (s : List Char) : ParseError → Prop
  | intro {fault : Fault} {before middle after : List Char} (hs : s = before ++ (middle ++ after))
      (hfault : FaultAt fault before middle after) : Located s ⟨fault, spanOf before middle⟩

theorem FaultAt.ne_nil {fault : Fault} {before middle after : List Char}
    (h : FaultAt fault before middle after) : middle ≠ [] := by
  cases h with
  | unopened => exact List.cons_ne_nil _ _
  | unclosed => exact List.cons_ne_nil _ _
  | missing h =>
      obtain ⟨c, rest, rfl, -⟩ := h.exists_cons
      exact List.cons_ne_nil c rest

theorem FaultAt.located {fault : Fault} {before middle after : List Char}
    (h : FaultAt fault before middle after) :
    Located (before ++ (middle ++ after)) ⟨fault, spanOf before middle⟩ :=
  .intro rfl h

/-! ## Parentheses -/

/-- The check of the parentheses names the first that closes nothing, or else the last that is
not closed. -/
theorem checkParens_eq_error {s : List Char} {e : ParseError}
    (h : checkParens [] 0 s = .error e) :
    Located s e ∧ ((e.fault = .unopenedParen ∧ Overclosed s) ∨
      (e.fault = .unclosedParen ∧ ¬ Overclosed s ∧ s.count ')' < s.count '(')) := by
  have houtcome := checkParens_outcome (.nil .nil) s
  rw [List.nil_append, byteLength_nil, h] at houtcome
  cases houtcome with
  | @unopened before after hs hbefore =>
      subst hs
      have hover : Overclosed (before ++ [')']) := by
        refine ⟨_, List.prefix_rfl, ?_⟩
        simp [hbefore.count_eq]
      refine ⟨(FaultAt.unopened after hbefore.not_overclosed hover).located, .inl ⟨rfl, ?_⟩⟩
      simpa using hover.append after
  | unclosed hopen =>
      obtain ⟨before, after, rfl, rfl, hlast, hafter⟩ := hopen.exists_last
      refine ⟨(FaultAt.unclosed before hlast hafter).located, .inr ⟨rfl, hopen.not_overclosed, ?_⟩⟩
      rw [hopen.count_eq]
      simp

theorem checkParens_eq_ok {s : List Char} (h : checkParens [] 0 s = .ok ()) :
    ¬ Overclosed s ∧ s.count '(' = s.count ')' := by
  have houtcome := checkParens_outcome (.nil .nil) s
  rw [List.nil_append, byteLength_nil, h] at houtcome
  cases houtcome with
  | ok hs => exact ⟨hs.not_overclosed, hs.count_eq⟩

/-! ## Operands -/

/-- The error names a place where an operand is lacking. -/
def Missed (s : List Char) (e : ParseError) : Prop := e.fault = .missingOperand ∧ Located s e

theorem Lacking.missed {before middle after : List Char} (h : Lacking before middle after) :
    Missed (before ++ (middle ++ after)) ⟨.missingOperand, spanOf before middle⟩ :=
  ⟨rfl, (FaultAt.missing h).located⟩

theorem Quantifies.ne_paren {sign : Char} {quantifier : Regex → Regex}
    (hq : Quantifies sign quantifier) : sign ≠ '(' ∧ sign ≠ ')' := by
  cases hq with
  | many => decide
  | many1 => decide

theorem Quantifies.missed_of_vacant {sign : Char} {quantifier : Regex → Regex}
    (hq : Quantifies sign quantifier) {u : List Char} (hu : Vacant u) (cs : List Char) :
    Missed (u ++ sign :: cs) ⟨.missingOperand, .single (byteLength u)⟩ := by
  cases hq with
  | many =>
      have hlacking : Lacking u ['*'] cs := .sign (.inl rfl) hu
      exact hlacking.missed
  | many1 =>
      have hlacking : Lacking u ['+'] cs := .sign (.inr rfl) hu
      exact hlacking.missed

theorem Level.repeatLast_eq_error {level : Level} {quantifier : Regex → Regex} {offset : Nat}
    {e : ParseError} (h : level.repeatLast quantifier offset = .error e) :
    level.run = [] ∧ e = ⟨.missingOperand, .single offset⟩ := by
  obtain ⟨bars, run⟩ := level
  cases run with
  | nil =>
      cases h
      exact ⟨rfl, rfl⟩
  | cons r run => cases h

theorem Level.close_eq_error {level : Level} {span : Span} {e : ParseError}
    (h : level.close span = .error e) :
    (∃ b ∈ level.bars, b.2 = [] ∧ e = ⟨.missingOperand, .single b.1⟩) ∨
      (level.run = [] ∧ ((level.bars = [] ∧ e = ⟨.missingOperand, span⟩) ∨
        ∃ b bars, level.bars = b :: bars ∧ e = ⟨.missingOperand, .single b.1⟩)) := by
  rw [close] at h
  cases hfind : level.bars.reverse.find? fun b => b.2.isEmpty with
  | some b =>
      rw [hfind] at h
      refine .inl ⟨b, ?_, ?_, ?_⟩
      · exact List.mem_reverse.1 (List.mem_of_find?_eq_some hfind)
      · simpa using List.find?_some hfind
      · simpa using h.symm
  | none =>
      rw [hfind] at h
      cases hrun : level.run with
      | cons r run => simp [hrun] at h
      | nil =>
          refine .inr ⟨rfl, ?_⟩
          cases hbars : level.bars with
          | nil => exact .inl ⟨rfl, by simpa [hrun, hbars] using h.symm⟩
          | cons b bars => exact .inr ⟨b, bars, rfl, by simpa [hrun, hbars] using h.symm⟩

/-- A bar at the byte `offset` has no operand before it. -/
def IdleBar (u : List Char) (offset : Nat) : Prop :=
  ∃ before after, u = before ++ '|' :: after ∧ offset = byteLength before ∧ Vacant before

/-- The bars of a group that have no operand before them are where the group says. -/
def IdleBars (u : List Char) (level : Level) : Prop :=
  ∀ b ∈ level.bars, b.2 = [] → IdleBar u b.1

theorem IdleBars.append {u : List Char} {level : Level} (h : IdleBars u level) (t : List Char) :
    IdleBars (u ++ t) level := by
  intro b hb hnil
  obtain ⟨before, after, rfl, hoffset, hvacant⟩ := h b hb hnil
  exact ⟨before, after ++ t, by rw [List.append_assoc, List.cons_append], hoffset, hvacant⟩

/-- The groups `outer` and `level` have been read from the text `u`. If there is no operand at the
end of it, it ends in the last bar of the group or in the parenthesis that opened the group. -/
structure GroupsRead (u : List Char) (outer : List (Nat × Level)) (level : Level) : Prop where
  bars : IdleBars u level
  outer_bars : ∀ o ∈ outer, IdleBars u o.2
  bar_of_run : level.run = [] → ∀ b bars, level.bars = b :: bars →
    ∃ v, u = v ++ ['|'] ∧ b.1 = byteLength v
  open_of_run : level.run = [] → level.bars = [] → (u = [] ∧ outer = []) ∨
    ∃ v before rest, u = v ++ ['('] ∧ outer = (byteLength v, before) :: rest

namespace GroupsRead

variable {u : List Char} {outer : List (Nat × Level)} {level : Level}

theorem empty : GroupsRead [] [] .empty where
  bars := by simp [IdleBars, Level.empty]
  outer_bars := by simp
  bar_of_run := by simp [Level.empty]
  open_of_run _ _ := .inl ⟨rfl, rfl⟩

theorem opening (h : GroupsRead u outer level) :
    GroupsRead (u ++ ['(']) ((byteLength u, level) :: outer) .empty where
  bars := by simp [IdleBars, Level.empty]
  outer_bars := List.forall_mem_cons.2
    ⟨h.bars.append _, fun o ho => (h.outer_bars o ho).append _⟩
  bar_of_run := by simp [Level.empty]
  open_of_run _ _ := .inr ⟨u, level, outer, rfl, rfl⟩

/-- With an operand at the end, only the bars before count. -/
theorem of_run_ne_nil (hbars : IdleBars u level) (houter : ∀ o ∈ outer, IdleBars u o.2)
    (hrun : level.run ≠ []) (t : List Char) : GroupsRead (u ++ t) outer level where
  bars := hbars.append t
  outer_bars o ho := (houter o ho).append t
  bar_of_run hnil := absurd hnil hrun
  open_of_run hnil := absurd hnil hrun

theorem push (hbars : IdleBars u level) (houter : ∀ o ∈ outer, IdleBars u o.2) (r : Regex)
    (t : List Char) : GroupsRead (u ++ t) outer (level.push r) :=
  of_run_ne_nil (show IdleBars u (level.push r) from hbars) houter (List.cons_ne_nil _ _) t

theorem repeatLast {level' : Level} {quantifier : Regex → Regex} {offset : Nat}
    (h : GroupsRead u outer level) (hlevel : level.repeatLast quantifier offset = .ok level')
    (t : List Char) : GroupsRead (u ++ t) outer level' := by
  obtain ⟨bars, run⟩ := level
  cases run with
  | nil => cases hlevel
  | cons r run =>
      cases hlevel
      have hbars : IdleBars u ⟨bars, quantifier r :: run⟩ := h.bars
      exact of_run_ne_nil hbars h.outer_bars (List.cons_ne_nil _ _) t

theorem vacant (h : GroupsRead u outer level) (hrun : level.run = []) : Vacant u := by
  cases hbars : level.bars with
  | nil =>
      rcases h.open_of_run hrun hbars with ⟨rfl, -⟩ | ⟨v, before, rest, rfl, -⟩
      · exact .inl rfl
      · exact .inr ⟨v, '(', rfl, .inl rfl⟩
  | cons b bars =>
      obtain ⟨v, rfl, -⟩ := h.bar_of_run hrun b bars hbars
      exact .inr ⟨v, '|', rfl, .inr rfl⟩

theorem bar (h : GroupsRead u outer level) :
    GroupsRead (u ++ ['|']) outer (level.bar (byteLength u)) where
  bars := List.forall_mem_cons.2
    ⟨fun hrun => ⟨u, [], rfl, rfl, h.vacant hrun⟩, h.bars.append _⟩
  outer_bars o ho := (h.outer_bars o ho).append _
  bar_of_run := by
    rintro - b bars hbars
    obtain ⟨rfl, -⟩ := List.cons.inj hbars
    exact ⟨u, rfl, rfl⟩
  open_of_run _ hbars := absurd hbars (List.cons_ne_nil _ _)

end GroupsRead

/-- A group that is not complete at its end lacks an operand, at one of its bars unless it is
empty. -/
theorem GroupsRead.missed_of_close {u after : List Char} {outer : List (Nat × Level)}
    {level : Level} {span : Span} {e : ParseError} (hu : GroupsRead u outer level)
    (h : level.close span = .error e) (hafter : after = [] ∨ after.head? = some ')')
    (hempty : level.run = [] → level.bars = [] → Missed (u ++ after) ⟨.missingOperand, span⟩) :
    Missed (u ++ after) e := by
  rcases Level.close_eq_error h with
    ⟨b, hb, hnil, rfl⟩ | ⟨hrun, ⟨hbars, rfl⟩ | ⟨b, bars, hbars, rfl⟩⟩
  · obtain ⟨before, rest, rfl, hoffset, hvacant⟩ := hu.bars b hb hnil
    have hlacking : Lacking before ['|'] (rest ++ after) := .barBehind rfl hvacant
    rw [hoffset, ← spanOf_singleton (c := '|') rfl]
    simpa using hlacking.missed
  · exact hempty hrun hbars
  · obtain ⟨v, rfl, hoffset⟩ := hu.bar_of_run hrun b bars hbars
    have hlacking : Lacking v ['|'] after := .barBefore rfl hafter
    rw [hoffset, ← spanOf_singleton (c := '|') rfl]
    simpa using hlacking.missed

/-- If the parentheses match, only operands can be lacking. -/
theorem read_eq_error (cs : List Char) {u : List Char} {outer : List (Nat × Level)} {level : Level}
    {e : ParseError} (hu : GroupsRead u outer level)
    (hparens : checkParens (outer.map Prod.fst) (byteLength u) cs = .ok ()) (hne : u ++ cs ≠ [])
    (h : read outer level (byteLength u) cs = .error e) : Missed (u ++ cs) e := by
  induction cs generalizing u outer level with
  | nil =>
      cases outer with
      | cons o outer => simp [checkParens.eq_def] at hparens
      | nil =>
          refine hu.missed_of_close (by simpa [read.eq_def] using h) (.inl rfl) ?_
          intro hrun hbars
          rcases hu.open_of_run hrun hbars with ⟨rfl, -⟩ | ⟨v, before, rest, -, houter⟩
          · exact absurd rfl hne
          · cases houter
  | cons c cs ih =>
      have hmove : byteLength (u ++ [c]) = byteLength u + c.utf8Size := by simp
      have hsplit : u ++ c :: cs = u ++ [c] ++ cs := by simp
      rcases char_cases c with rfl | rfl | rfl | ⟨quantifier, hq⟩ | hc
      case inl =>
        rw [read_open, ← hmove] at h
        rw [checkParens_open, ← hmove] at hparens
        rw [hsplit] at hne ⊢
        exact ih hu.opening hparens hne h
      case inr.inl =>
        cases outer with
        | nil =>
            rw [List.map_nil, checkParens_close_nil] at hparens
            cases hparens
        | cons o outer =>
            obtain ⟨start, before⟩ := o
            rw [read_close, ← hmove] at h
            rw [List.map_cons, checkParens_close, ← hmove] at hparens
            rcases exists_of_bind_eq_error h with h | ⟨group, -, h⟩
            · refine hu.missed_of_close h (.inr rfl) fun hrun hbars => ?_
              rcases hu.open_of_run hrun hbars with ⟨-, houter⟩ | ⟨v, _, _, rfl, houter⟩
              · cases houter
              · cases houter
                have hspan : spanOf v ['(', ')'] = ⟨byteLength v, byteLength (v ++ ['(']) + 1⟩ := by
                  rw [byteLength_append]
                  rfl
                have hlacking : Lacking v ['(', ')'] cs := .group rfl
                simpa [hspan] using hlacking.missed
            · rw [hsplit] at hne ⊢
              obtain ⟨hbefore, houter⟩ := List.forall_mem_cons.1 hu.outer_bars
              exact ih (.push hbefore houter group _) hparens hne h
      case inr.inr.inl =>
        rw [read_bar, ← hmove] at h
        rw [checkParens_other _ _ _ (by decide) (by decide), ← hmove] at hparens
        rw [hsplit] at hne ⊢
        exact ih hu.bar hparens hne h
      case inr.inr.inr.inl =>
        rw [read_sign _ _ _ _ hq, ← hmove] at h
        rcases exists_of_bind_eq_error h with h | ⟨level', hlevel, h⟩
        · obtain ⟨hrun, rfl⟩ := Level.repeatLast_eq_error h
          exact hq.missed_of_vacant (hu.vacant hrun) cs
        · obtain ⟨hopen, hclose⟩ := hq.ne_paren
          rw [checkParens_other _ _ _ hopen hclose, ← hmove] at hparens
          rw [hsplit] at hne ⊢
          exact ih (hu.repeatLast hlevel _) hparens hne h
      case inr.inr.inr.inr =>
        obtain ⟨hopen, hclose, -⟩ := ne_of_isOperator_eq_false hc
        rw [read_literal _ _ _ _ hc, ← hmove] at h
        rw [checkParens_other _ _ _ hopen hclose, ← hmove] at hparens
        rw [hsplit] at hne ⊢
        exact ih (.push hu.bars hu.outer_bars (.char c) _) hparens hne h

/-! ## The report -/

/-- As many characters are before a part of a text as there are. -/
theorem charsBefore?_append (before after : List Char) :
    Report.charsBefore? (before ++ after) (byteLength before) = some before.length := by
  induction before with
  | nil => simp [Report.charsBefore?]
  | cons c before ih =>
      obtain ⟨n, hn⟩ : ∃ n, c.utf8Size + byteLength before = n + 1 :=
        Nat.exists_eq_succ_of_ne_zero (by have := c.utf8Size_pos; omega)
      have hrest : n + 1 - c.utf8Size = byteLength before := by omega
      have hle : c.utf8Size ≤ n + 1 := by omega
      rw [List.cons_append, byteLength_cons, hn, Report.charsBefore?, if_pos hle, hrest, ih]
      rfl

theorem underline_spanOf {source : String} {before middle after : List Char}
    (hsource : source.toList = before ++ (middle ++ after)) (hne : middle ≠ []) :
    Report.underline source (spanOf before middle) = "  " ++ source ++ "\n  " ++ String.ofList
      (List.replicate before.length ' ' ++ List.replicate middle.length '^') := by
  have hstart : Report.charsBefore? source.toList (spanOf before middle).start =
      some before.length := by
    rw [hsource]
    exact charsBefore?_append before (middle ++ after)
  have hstop : Report.charsBefore? source.toList (spanOf before middle).stop =
      some (before ++ middle).length := by
    rw [hsource, ← List.append_assoc, spanOf, ← byteLength_append]
    exact charsBefore?_append (before ++ middle) after
  have hcolumn : Report.column source.toList (spanOf before middle) = before.length := by
    rw [Report.column, hstart, Option.getD_some]
  have hwidth : Report.width source.toList (spanOf before middle) = middle.length := by
    have hle : (spanOf before middle).start ≤ (spanOf before middle).stop := Nat.le_add_right _ _
    have hpos : 1 ≤ middle.length := List.length_pos_iff.2 hne
    rw [Report.width, if_pos hle, hstart, hstop, List.length_append]
    simp only [Nat.add_sub_cancel_left]
    exact Nat.max_eq_right hpos
  rw [Report.underline, hcolumn, hwidth]

/-! ## The whole text -/

/-- A fault of the parentheses is found before one of the operands. -/
theorem parseChars_eq_error {cs : List Char} {e : ParseError} (h : parseChars cs = .error e) :
    Located cs e ∧ (e.fault = .unopenedParen ↔ Overclosed cs) ∧
      (e.fault = .unclosedParen ↔ ¬ Overclosed cs ∧ cs.count ')' < cs.count '(') := by
  have hne : cs ≠ [] := by
    rintro rfl
    cases h
  rw [parseChars_eq_bind hne] at h
  rcases exists_of_bind_eq_error h with h | ⟨⟨⟩, hparens, h⟩
  · obtain ⟨hlocated, ⟨hfault, hover⟩ | ⟨hfault, hover, hcount⟩⟩ := checkParens_eq_error h
    · simp [hlocated, hfault, hover]
    · simp [hlocated, hfault, hover, hcount]
  · obtain ⟨hover, hcount⟩ := checkParens_eq_ok hparens
    obtain ⟨hfault, hlocated⟩ : Missed cs e := read_eq_error cs .empty hparens hne h
    simp [hlocated, hfault, hover, hcount]

/-- A text is an expression, or else empty, if its parentheses match and no operand is lacking. -/
theorem exists_parseChars_iff (cs : List Char) : (∃ r, parseChars cs = .ok r) ↔
    ¬ Overclosed cs ∧ cs.count '(' = cs.count ')' ∧ Supplied cs := by
  constructor
  · rintro ⟨r, hr⟩
    by_cases hne : cs = []
    · subst hne
      exact ⟨Balanced.nil.not_overclosed, rfl, supplied_nil⟩
    · obtain ⟨t, ht, -⟩ := (parseChars_eq_ok_iff hne r).1 hr
      obtain ⟨hbalanced, hsupplied⟩ := ht.balanced_supplied
      exact ⟨hbalanced.not_overclosed, hbalanced.count_eq, hsupplied⟩
  · rintro ⟨hover, hcount, hsupplied⟩
    cases h : parseChars cs with
    | ok r => exact ⟨r, rfl⟩
    | error e =>
        obtain ⟨⟨hcs, hfault⟩, hunopened, hunclosed⟩ := parseChars_eq_error h
        cases hfault with
        | unopened => exact absurd (hunopened.1 rfl) hover
        | unclosed => exact absurd hcount.symm (Nat.ne_of_lt (hunclosed.1 rfl).2)
        | missing hmissing => exact absurd hmissing (hsupplied _ _ _ hcs)

theorem Fault.mem_message (f : Fault) : (f, f.message) ∈
    [(Fault.unopenedParen, "unmatched closing parenthesis"),
      (Fault.unclosedParen, "unclosed parenthesis"), (Fault.missingOperand, "missing operand")] := by
  cases f with
  | unopenedParen => exact .head _
  | unclosedParen => exact .tail _ (.head _)
  | missingOperand => exact .tail _ (.tail _ (.head _))

/-- Reading fails at the first parenthesis that closes nothing, or else at the last that is never
closed, or else where an operand is lacking. The report says which of these it is, and marks the
characters that are at fault. A text is read exactly if every parenthesis has its match and no
operand is lacking. -/
theorem parse_eq_error (source : String) :
    (∀ e, parse source = .error e →
      (e.fault = .unopenedParen ↔ Overclosed source.toList) ∧
      (e.fault = .unclosedParen ↔
        ¬ Overclosed source.toList ∧ source.toList.count ')' < source.toList.count '(') ∧
      ∃ before middle after kind, source.toList = before ++ (middle ++ after) ∧ middle ≠ [] ∧
        FaultAt e.fault before middle after ∧
        e.span = ⟨(String.ofList before).utf8ByteSize,
          (String.ofList (before ++ middle)).utf8ByteSize⟩ ∧
        (e.fault, kind) ∈
          [(Fault.unopenedParen, "unmatched closing parenthesis"),
            (Fault.unclosedParen, "unclosed parenthesis"),
            (Fault.missingOperand, "missing operand")] ∧
        (Failure.regex source e).report =
          "error: " ++ kind ++ "\n  " ++ source ++ "\n  " ++ String.ofList
            (List.replicate before.length ' ' ++ List.replicate middle.length '^')) ∧
    ((∃ r, parse source = .ok r) ↔ ¬ Overclosed source.toList ∧
      source.toList.count '(' = source.toList.count ')' ∧ Supplied source.toList) := by
  refine ⟨?_, exists_parseChars_iff source.toList⟩
  intro e h
  obtain ⟨⟨hsource, hfault⟩, hunopened, hunclosed⟩ := parseChars_eq_error h
  refine ⟨hunopened, hunclosed, _, _, _, _, hsource, hfault.ne_nil, hfault, ?_,
    Fault.mem_message _, ?_⟩
  · rw [utf8ByteSize_ofList, utf8ByteSize_ofList, byteLength_append]
    rfl
  · rw [Failure.report, underline_spanOf hsource hfault.ne_nil,
      show "\n  " = "\n" ++ "  " from rfl]
    simp only [String.append_assoc]

/-- A text of each kind. The letter before the parenthesis or the bar is one character, but two
bytes. -/
theorem parse_eq_error_eachKind :
    (∃ before middle after, "é)".toList = before ++ (middle ++ after) ∧
      FaultAt .unopenedParen before middle after ∧
      (Failure.regex "é)" ⟨.unopenedParen, ⟨2, 3⟩⟩).report =
        "error: unmatched closing parenthesis\n  é)\n  " ++ String.ofList
          (List.replicate before.length ' ' ++ List.replicate middle.length '^')) ∧
    (∃ before middle after, "é(a".toList = before ++ (middle ++ after) ∧
      FaultAt .unclosedParen before middle after ∧
      (Failure.regex "é(a" ⟨.unclosedParen, ⟨2, 3⟩⟩).report =
        "error: unclosed parenthesis\n  é(a\n  " ++ String.ofList
          (List.replicate before.length ' ' ++ List.replicate middle.length '^')) ∧
    (∃ before middle after, "é(|b)".toList = before ++ (middle ++ after) ∧
      FaultAt .missingOperand before middle after ∧
      (Failure.regex "é(|b)" ⟨.missingOperand, ⟨3, 4⟩⟩).report =
        "error: missing operand\n  é(|b)\n  " ++ String.ofList
          (List.replicate before.length ' ' ++ List.replicate middle.length '^')) ∧
    ¬ Supplied "é(|b)".toList := by
  have hunopened : parse "é)" = .error ⟨.unopenedParen, ⟨2, 3⟩⟩ := by rfl
  have hunclosed : parse "é(a" = .error ⟨.unclosedParen, ⟨2, 3⟩⟩ := by rfl
  have hmissing : parse "é(|b)" = .error ⟨.missingOperand, ⟨3, 4⟩⟩ := by rfl
  refine ⟨?_, ?_, ?_⟩
  · obtain ⟨-, -, before, middle, after, kind, hsource, -, hfault, -, hkind, hreport⟩ :=
      (parse_eq_error "é)").1 _ hunopened
    obtain rfl : kind = "unmatched closing parenthesis" := by simpa using hkind
    exact ⟨before, middle, after, hsource, hfault, hreport⟩
  · obtain ⟨-, -, before, middle, after, kind, hsource, -, hfault, -, hkind, hreport⟩ :=
      (parse_eq_error "é(a").1 _ hunclosed
    obtain rfl : kind = "unclosed parenthesis" := by simpa using hkind
    exact ⟨before, middle, after, hsource, hfault, hreport⟩
  · obtain ⟨-, -, before, middle, after, kind, hsource, -, hfault, -, hkind, hreport⟩ :=
      (parse_eq_error "é(|b)").1 _ hmissing
    obtain rfl : kind = "missing operand" := by simpa using hkind
    refine ⟨⟨before, middle, after, hsource, hfault, hreport⟩, fun hsupplied => ?_⟩
    cases hfault with
    | missing hlacking => exact hsupplied before middle after hsource hlacking

example : (Failure.regex "é(|b)" ⟨.missingOperand, ⟨3, 4⟩⟩).report =
    "error: missing operand\n  é(|b)\n    ^" := by
  rfl

end FiniteState.Regex
