import FiniteState.Proofs.Json.Leaf
import Mathlib.Data.List.Forall2

/-!
# Values that are read back

A reader takes a text for a value if it gives this value wherever the text stands: behind any
space, and in front of anything that may follow a value. Lists and records are taken if their
parts are. Both layouts of a value put the same parts between the same delimiters and differ
in the space around them only, so one statement about each reader serves both.
-/

namespace FiniteState.Json

variable {α β δ : Type}

/-! ## The texts of values -/

/-- Parts between their delimiters, with `gap` in front of each and `last` behind them. -/
def spread (gap last : List Char) (opening closing : Char) :
    List (List Char) → List Char
  | [] => [opening, closing]
  | part :: parts =>
      opening :: (gap ++ (part ++
        (parts.flatMap (fun part => ',' :: (gap ++ part)) ++ (last ++ [closing]))))

theorem joinWith_cons (separator text : List Char) (texts : List (List Char)) :
    joinWith separator (text :: texts) =
      text ++ texts.flatMap (fun text => separator ++ text) := by
  induction texts generalizing text with
  | nil => simp [joinWith]
  | cons next texts ih => rw [joinWith, ih, List.flatMap_cons, List.append_assoc]; simp

theorem enclosed_eq_spread (opening closing : Char) (parts : List (List Char)) :
    enclosed opening closing parts = spread [] [] opening closing parts := by
  cases parts with
  | nil => rfl
  | cons part parts => rw [enclosed, joinWith_cons]; simp [spread]

theorem enclosedLines_eq_spread (opening closing : Char) (depth : Nat)
    (parts : List (List Char)) :
    enclosedLines opening closing depth parts =
      spread (newLine (depth + 1)) (newLine depth) opening closing parts := by
  cases parts with
  | nil => rfl
  | cons part parts => rw [enclosedLines, joinWith_cons]; simp [spread]

/-- A layout: on one line, or with the parts on lines of their own inside some enclosures. -/
abbrev Layout := Option Nat

namespace Layout

/-- The layout of the parts. -/
def inner (layout : Layout) : Layout := layout.map (· + 1)

/-- What stands in front of the closing delimiter. -/
def gap : Layout → List Char
  | none => []
  | some depth => newLine depth

/-- What stands behind a colon. -/
def afterColon : Layout → List Char
  | none => []
  | some _ => [' ']

theorem isSpaces_gap (layout : Layout) : IsSpaces layout.gap := by
  cases layout with
  | none => exact isSpaces_nil
  | some depth =>
      intro c hc
      rcases List.mem_cons.1 hc with rfl | hc
      · rfl
      · rw [List.eq_of_mem_replicate hc]; rfl

theorem isSpaces_afterColon (layout : Layout) : IsSpaces layout.afterColon := by
  cases layout with
  | none => exact isSpaces_nil
  | some depth =>
      intro c hc
      rw [List.mem_singleton.1 hc]
      rfl

/-- The text of a value. -/
def text : Layout → Value → List Char
  | none => compact
  | some depth => pretty depth

/-- A field of a record as it is written. -/
def field (layout : Layout) (entry : String × Value) : List Char :=
  quoted entry.1 ++ ':' :: (layout.afterColon ++ layout.inner.text entry.2)

theorem text_list (layout : Layout) (items : List Value) :
    layout.text (.list items) =
      spread layout.inner.gap layout.gap '[' ']' (items.map layout.inner.text) := by
  cases layout with
  | none =>
      have hitems : compactItems items = items.map compact := by
        induction items with
        | nil => rfl
        | cons item items ih => rw [compactItems, ih]; rfl
      rw [text, compact, enclosed_eq_spread, hitems]
      rfl
  | some depth =>
      have hitems : prettyItems depth items = items.map (pretty (depth + 1)) := by
        induction items with
        | nil => rfl
        | cons item items ih => rw [prettyItems, ih]; rfl
      rw [text, pretty, enclosedLines_eq_spread, hitems]
      rfl

theorem text_record (layout : Layout) (entries : List (String × Value)) :
    layout.text (.record entries) =
      spread layout.inner.gap layout.gap '\x7b' '\x7d' (entries.map layout.field) := by
  cases layout with
  | none =>
      have hfields : compactFields entries = entries.map (field none) := by
        induction entries with
        | nil => rfl
        | cons entry entries ih => rw [compactFields, ih]; rfl
      rw [text, compact, enclosed_eq_spread, hfields]
      rfl
  | some depth =>
      have hfields : prettyFields depth entries = entries.map (field (some depth)) := by
        induction entries with
        | nil => rfl
        | cons entry entries ih => rw [prettyFields, ih]; rfl
      rw [text, pretty, enclosedLines_eq_spread, hfields]
      rfl

theorem text_string (layout : Layout) (s : String) :
    layout.text (.string s) = quoted s := by
  cases layout <;> rfl

theorem text_bool (layout : Layout) (b : Bool) :
    layout.text (.bool b) = renderLeaf (.bool b) := by
  cases layout <;> cases b <;> rfl

theorem text_number (layout : Layout) (x : Float) :
    layout.text (.number x) = renderLeaf (.number x) := by
  cases layout <;> rfl

theorem text_null (layout : Layout) : layout.text .null = "null".toList := by
  cases layout <;> rfl

end Layout

theorem write_eq_text (lines : Bool) (v : Value) :
    write lines v = String.ofList (Layout.text (if lines then some 0 else none) v) := by
  cases lines <;> rfl

/-! ## Readers that take a text -/

/-- The reader gives `x` for the text wherever this may stand. -/
def Takes (r : Reader α) (text : List Char) (x : α) : Prop :=
  ∀ gap rest, IsSpaces gap → Delimited rest → r (gap ++ (text ++ rest)) = .ok (x, rest)

/-- The reader gives `x` for the value in every layout. -/
def Reads (r : Reader α) (v : Value) (x : α) : Prop :=
  ∀ layout : Layout, Takes r (layout.text v) x

/-- The text is neither the end of a list nor `null`, and no space stands at its beginning. -/
def Opens (text : List Char) : Prop :=
  ∃ c cs, text = c :: cs ∧ isSpace c = false ∧ c ≠ ']' ∧ c ≠ 'n'

theorem Takes.map {r : Reader α} {text : List Char} {x : α} (h : Takes r text x) (f : α → β) :
    Takes (fun cs => (r cs).map fun p => (f p.1, p.2)) text (f x) := by
  intro gap rest hgap hrest
  dsimp only
  rw [h gap rest hgap hrest]
  rfl

theorem Reads.map {r : Reader α} {v : Value} {x : α} (h : Reads r v x) (f : α → β) :
    Reads (fun cs => (r cs).map fun p => (f p.1, p.2)) v (f x) :=
  fun layout => (h layout).map f

theorem opens_quoted (s : String) : Opens (quoted s) :=
  ⟨'"', _, rfl, by decide, by decide, by decide⟩

theorem opens_spread (gap last : List Char) {opening : Char} (closing : Char)
    (hopening : isSpace opening = false ∧ opening ≠ ']' ∧ opening ≠ 'n')
    (parts : List (List Char)) : Opens (spread gap last opening closing parts) := by
  cases parts with
  | nil => exact ⟨opening, _, rfl, hopening⟩
  | cons part parts => exact ⟨opening, _, rfl, hopening⟩

theorem Opens.of_list (layout : Layout) (items : List Value) :
    Opens (layout.text (.list items)) := by
  rw [layout.text_list]
  exact opens_spread _ _ _ (by decide) _

theorem Opens.of_record (layout : Layout) (entries : List (String × Value)) :
    Opens (layout.text (.record entries)) := by
  rw [layout.text_record]
  exact opens_spread _ _ _ (by decide) _

/-! ## Leaves -/

theorem reads_string (s : String) : Reads string (.string s) s := by
  intro layout gap rest hgap _
  have hquote : isSpace '"' = false := by decide
  rw [layout.text_string, quoted, List.cons_append, string, skipSpace_append_cons hgap hquote]
  simp only [if_pos, List.append_assoc, List.singleton_append]
  exact stringBody_flatMap_escapeChar s rest

theorem reads_bool (b : Bool) : Reads bool (.bool b) b := by
  intro layout gap rest hgap _
  have ht : isSpace 't' = false := by decide
  have hf : isSpace 'f' = false := by decide
  rw [layout.text_bool]
  cases b with
  | true =>
      change bool (gap ++ 't' :: 'r' :: 'u' :: 'e' :: rest) = _
      rw [bool, skipSpace_append_cons hgap ht]
      rfl
  | false =>
      change bool (gap ++ 'f' :: 'a' :: 'l' :: 's' :: 'e' :: rest) = _
      rw [bool, skipSpace_append_cons hgap hf]
      rfl

/-- The number is read back from its own text. -/
def Faithful (x : Float) : Prop := number (renderLeaf (.number x)) = .ok (x, [])

theorem reads_number {x : Float} (h : Faithful x) : Reads number (.number x) x := by
  intro layout gap rest hgap hrest
  rw [layout.text_number]
  rw [Faithful, number] at h
  rw [number, skipSpace_append hgap]
  -- Nothing is known of the text but that it is read to its end.
  generalize renderLeaf (.number x) = text at h
  cases hskip : skipSpace text with
  | nil => rw [hskip] at h; cases h
  | cons c cs =>
      have happend : skipSpace (text ++ rest) = c :: (cs ++ rest) := by
        rw [skipSpace, List.dropWhile_append, ← skipSpace, hskip]
        rfl
      rw [hskip] at h
      simp only [happend]
      simp only at h
      by_cases hc : startsNumber c = true
      · rw [if_pos hc] at h ⊢
        exact numberBody_append hrest h
      · rw [if_neg hc] at h
        cases h

theorem reads_none (r : Reader α) : Reads (optional r) .null none := by
  intro layout gap rest hgap _
  have hn : isSpace 'n' = false := by decide
  rw [layout.text_null]
  change optional r (gap ++ 'n' :: 'u' :: 'l' :: 'l' :: rest) = _
  rw [optional, skipSpace_append_cons hgap hn]
  rfl

theorem reads_some {r : Reader α} {v : Value} {x : α} (h : Reads r v x)
    (hopens : ∀ layout : Layout, Opens (layout.text v)) : Reads (optional r) v (some x) := by
  intro layout gap rest hgap hrest
  obtain ⟨c, cs, htext, hspace, -, hn⟩ := hopens layout
  have hread := h layout [] rest isSpaces_nil hrest
  rw [htext, List.nil_append, List.cons_append] at hread
  rw [htext, List.cons_append, optional, skipSpace_append_cons hgap hspace]
  simp only
  rw [if_neg hn, hread]
  rfl

/-! ## Lists -/

/-- A text that is taken without space in front of it begins with its own first character. -/
theorem Takes.cons {r : Reader α} {text : List Char} {x : α} (h : Takes r text x)
    (hopens : Opens text) {gap rest : List Char} (hgap : IsSpaces gap)
    (hrest : Delimited rest) :
    ∃ c cs, skipSpace (gap ++ (text ++ rest)) = c :: cs ∧ c ≠ ']' ∧
      r (c :: cs) = .ok (x, rest) := by
  obtain ⟨c, cs, rfl, hspace, hclosing, -⟩ := hopens
  have hread := h [] rest isSpaces_nil hrest
  exact ⟨c, cs ++ rest, skipSpace_append_cons hgap hspace _, hclosing, hread⟩

/-- What stands behind a part of a list or a record may stand behind a value. -/
theorem delimited_flatMap (gap : List Char) {last : List Char} {closing : Char}
    (hlast : IsSpaces last) (hclosing : closing = ']' ∨ closing = '\x7d')
    (parts : List (List Char)) (rest : List Char) :
    Delimited (parts.flatMap (fun part => ',' :: (gap ++ part)) ++
      (last ++ closing :: rest)) := by
  cases parts with
  | nil =>
      rw [List.flatMap_nil, List.nil_append]
      exact delimited_append hlast (delimited_cons (hclosing.elim (.inr ∘ .inl)
        (.inr ∘ .inr ∘ .inl)) rest)
  | cons part parts =>
      rw [List.flatMap_cons, List.cons_append, List.cons_append]
      exact delimited_cons (.inl rfl) _

/-- Every part takes a character at least, so the length of the text bounds their number. -/
theorem length_le_flatMap (gap : List Char) (parts : List (List Char)) (rest : List Char) :
    parts.length ≤ (parts.flatMap (fun part => ',' :: (gap ++ part)) ++ rest).length := by
  induction parts with
  | nil => exact Nat.zero_le _
  | cons part parts ih =>
      rw [List.flatMap_cons, List.append_assoc, List.length_append, List.length_cons,
        List.length_cons]
      omega

theorem itemsAfter_flatMap {item : Reader α} {gap last rest : List Char} (hgap : IsSpaces gap)
    (hlast : IsSpaces last) {parts : List (List Char)} {xs : List α}
    (h : List.Forall₂ (fun part x => Takes item part x ∧ Opens part) parts xs) (n : Nat)
    (hn : parts.length < n) (read : List α) :
    itemsAfter item n read
        (parts.flatMap (fun part => ',' :: (gap ++ part)) ++ (last ++ ']' :: rest)) =
      .ok (read.reverse ++ xs, rest) := by
  have hclosing : isSpace ']' = false := by decide
  have hcomma : isSpace ',' = false := by decide
  -- By induction on the parts that are left: the bound stays above their number.
  induction h generalizing n read with
  | nil =>
      obtain ⟨n, rfl⟩ : ∃ m, n = m + 1 := ⟨n - 1, by simp at hn; omega⟩
      rw [List.flatMap_nil, List.nil_append, itemsAfter, skipSpace_append_cons hlast hclosing]
      simp
  | @cons part x parts xs hpart _ ih =>
      rw [List.length_cons] at hn
      obtain ⟨n, rfl⟩ : ∃ m, n = m + 1 := ⟨n - 1, by omega⟩
      have hne : (',' : Char) ≠ ']' := by decide
      obtain ⟨c, cs, hskip, hc, hread⟩ :=
        hpart.1.cons hpart.2 hgap (delimited_flatMap gap hlast (.inl rfl) parts rest)
      rw [List.flatMap_cons, List.append_assoc, List.cons_append, itemsAfter,
        skipSpace_cons hcomma]
      simp only [if_neg hne, if_pos, List.append_assoc, hskip, if_neg hc, hread]
      rw [ih n (by omega), List.reverse_cons, List.append_assoc, List.singleton_append]

theorem takes_list {item : Reader α} {gap last : List Char} (hgap : IsSpaces gap)
    (hlast : IsSpaces last) {parts : List (List Char)} {xs : List α}
    (h : List.Forall₂ (fun part x => Takes item part x ∧ Opens part) parts xs) :
    Takes (list item) (spread gap last '[' ']' parts) xs := by
  intro before rest hbefore hrest
  have hopening : isSpace '[' = false := by decide
  have hclosing : isSpace ']' = false := by decide
  cases h with
  | nil =>
      rw [spread, List.cons_append, list, skipSpace_append_cons hbefore hopening]
      simp [skipSpace_cons hclosing]
  | @cons part x parts xs hpart hparts =>
      obtain ⟨c, cs, hskip, hc, hread⟩ :=
        hpart.1.cons hpart.2 hgap (delimited_flatMap gap hlast (.inl rfl) parts rest)
      have hlength := length_le_flatMap gap parts (last ++ ']' :: rest)
      rw [spread, List.cons_append, list, skipSpace_append_cons hbefore hopening]
      simp only [if_pos, List.append_assoc, List.singleton_append, hskip, if_neg hc, hread]
      exact itemsAfter_flatMap hgap hlast hparts _ (by omega) [x]

theorem reads_list {item : Reader α} {vs : List Value} {xs : List α}
    (h : List.Forall₂ (fun v x => Reads item v x ∧ ∀ layout : Layout, Opens (layout.text v))
      vs xs) :
    Reads (list item) (.list vs) xs := by
  intro layout
  rw [layout.text_list]
  refine takes_list layout.inner.isSpaces_gap layout.isSpaces_gap ?_
  rw [List.forall₂_map_left_iff]
  exact h.imp fun v x hv => ⟨hv.1 layout.inner, hv.2 layout.inner⟩

/-! ## Records -/

/-- The field of the entry is known, and its reader gives the change for its value. -/
def Entered (fields : List (FieldReader δ)) (entry : String × Value) (change : δ → δ) : Prop :=
  ∃ field, fields.find? (fun field => field.name == entry.1) = some field ∧
    Reads field.read entry.2 change

variable {fields : List (FieldReader δ)}

/-- A field sets what its reader gives. -/
theorem entered_of_find? (fields : List (FieldReader δ)) (key : String) {r : Reader α}
    {v : Value} {x : α} (f : α → δ → δ)
    (hfind : fields.find? (fun field => field.name == key) =
      some ⟨key, fun cs => (r cs).map fun p => (f p.1, p.2)⟩)
    (h : Reads r v x) : Entered fields (key, v) (f x) :=
  ⟨_, hfind, h.map f⟩

/-- An entry that comes for the first time is taken, from behind its opening quote. -/
theorem namedField_of_entered {entry : String × Value} {change : δ → δ}
    (h : Entered fields entry change) (layout : Layout) {seen : List String}
    (hseen : entry.1 ∉ seen) (value : δ) {rest : List Char} (hrest : Delimited rest) :
    ∃ cs, layout.field entry = '"' :: cs ∧
      namedField fields seen value (cs ++ rest) =
        .ok ((change value, entry.1 :: seen), rest) := by
  obtain ⟨field, hfield, hreads⟩ := h
  refine ⟨entry.1.toList.flatMap escapeChar ++
    '"' :: ':' :: (layout.afterColon ++ layout.inner.text entry.2),
    by simp [Layout.field, quoted], ?_⟩
  have hcolon : isSpace ':' = false := by decide
  have hcontains : seen.contains entry.1 = false := by simpa using hseen
  have hread := hreads layout.inner layout.afterColon rest layout.isSpaces_afterColon hrest
  rw [List.append_assoc, List.cons_append, List.cons_append, namedField,
    stringBody_flatMap_escapeChar]
  simp only [hfield, hcontains, Bool.false_eq_true, if_false, colon, skipSpace_cons hcolon,
    if_pos, List.append_assoc, hread]

/-- At its end a record has been read if no required field is missing. -/
theorem recordEnd_of_seen {required : Bool} {seen : List String}
    (h : required = true → ∀ field ∈ fields, field.name ∈ seen) (value : δ)
    (rest : List Char) : recordEnd fields required seen value rest = .ok (value, rest) := by
  have hnone : (required && !fields.all fun field => seen.contains field.name) = false := by
    cases required with
    | false => rfl
    | true => simpa using h rfl
  rw [recordEnd, hnone]
  rfl

theorem fieldsAfter_flatMap {layout : Layout} {gap last rest : List Char}
    (hgap : IsSpaces gap) (hlast : IsSpaces last) {required : Bool}
    {entries : List (String × Value)} {changes : List (δ → δ)}
    (h : List.Forall₂ (Entered fields) entries changes) (n : Nat)
    (hn : entries.length < n) (seen : List String) (value : δ)
    (hnodup : (entries.map Prod.fst).Nodup) (hseen : ∀ entry ∈ entries, entry.1 ∉ seen)
    (hrequired : required = true →
      ∀ field ∈ fields, field.name ∈ seen ∨ field.name ∈ entries.map Prod.fst) :
    fieldsAfter fields required n seen value
        ((entries.map layout.field).flatMap (fun part => ',' :: (gap ++ part)) ++
          (last ++ '\x7d' :: rest)) =
      .ok (changes.foldl (fun value change => change value) value, rest) := by
  have hclosing : isSpace '\x7d' = false := by decide
  have hcomma : isSpace ',' = false := by decide
  have hquote : isSpace '"' = false := by decide
  -- A required field is among those that are seen or among those that are left.
  induction h generalizing n seen value with
  | nil =>
      obtain ⟨n, rfl⟩ : ∃ m, n = m + 1 := ⟨n - 1, by simp at hn; omega⟩
      rw [List.map_nil, List.flatMap_nil, List.nil_append, fieldsAfter,
        skipSpace_append_cons hlast hclosing]
      simp only [if_pos, List.foldl_nil]
      exact recordEnd_of_seen (by simpa using hrequired) value rest
  | @cons entry change entries changes hentry _ ih =>
      rw [List.length_cons] at hn
      obtain ⟨n, rfl⟩ : ∃ m, n = m + 1 := ⟨n - 1, by omega⟩
      obtain ⟨hfresh, hseen⟩ := List.forall_mem_cons.1 hseen
      rw [List.map_cons, List.nodup_cons] at hnodup
      have hne : (',' : Char) ≠ '\x7d' := by decide
      obtain ⟨cs, hfield, hread⟩ := namedField_of_entered hentry layout hfresh value
        (delimited_flatMap gap hlast (.inr rfl) (entries.map layout.field) rest)
      rw [List.map_cons, List.flatMap_cons, List.append_assoc, List.cons_append, fieldsAfter,
        skipSpace_cons hcomma, hfield]
      simp only [if_neg hne, if_pos, List.append_assoc, List.cons_append,
        skipSpace_append_cons hgap hquote, hread, List.foldl_cons]
      refine ih n (by omega) _ _ hnodup.2 ?_ ?_
      · intro other hother
        rw [List.mem_cons, not_or]
        refine ⟨fun he => hnodup.1 ?_, hseen other hother⟩
        exact he ▸ List.mem_map_of_mem hother
      · intro hreq field hmem
        have hcases := hrequired hreq field hmem
        rw [List.map_cons, List.mem_cons] at hcases
        rw [List.mem_cons]
        tauto

/-- A record is read back if its entries are known fields, each of them once, and no required
one is missing. -/
theorem reads_record {required : Bool} {entries : List (String × Value)}
    {changes : List (δ → δ)} (h : List.Forall₂ (Entered fields) entries changes)
    (hnodup : (entries.map Prod.fst).Nodup)
    (hrequired : required = true → ∀ field ∈ fields, field.name ∈ entries.map Prod.fst)
    (value : δ) :
    Reads (record fields required value) (.record entries)
      (changes.foldl (fun value change => change value) value) := by
  intro layout before rest hbefore hrest
  have hopening : isSpace '\x7b' = false := by decide
  have hclosing : isSpace '\x7d' = false := by decide
  have hquote : isSpace '"' = false := by decide
  have hbracket : ('\x7b' : Char) ≠ '[' := by decide
  have hne : ('"' : Char) ≠ '\x7d' := by decide
  rw [layout.text_record]
  cases h with
  | nil =>
      rw [List.map_nil, spread, List.cons_append, record,
        skipSpace_append_cons hbefore hopening]
      simp only [if_neg hbracket, if_pos, List.cons_append, List.nil_append,
        skipSpace_cons hclosing, List.foldl_nil]
      exact recordEnd_of_seen (by simpa using hrequired) value rest
  | @cons entry change entries changes hentry hentries =>
      rw [List.map_cons, List.nodup_cons] at hnodup
      have hlength := length_le_flatMap layout.inner.gap (entries.map layout.field)
        (layout.gap ++ '\x7d' :: rest)
      rw [List.length_map] at hlength
      obtain ⟨cs, hfield, hread⟩ := namedField_of_entered hentry layout
        (List.not_mem_nil : entry.1 ∉ []) value
        (delimited_flatMap layout.inner.gap layout.isSpaces_gap (.inr rfl)
          (entries.map layout.field) rest)
      rw [List.map_cons, spread, List.cons_append, record,
        skipSpace_append_cons hbefore hopening, hfield]
      simp only [if_neg hbracket, if_pos, List.append_assoc, List.cons_append,
        List.nil_append, skipSpace_append_cons layout.inner.isSpaces_gap hquote, if_neg hne,
        hread, List.foldl_cons]
      refine fieldsAfter_flatMap layout.inner.isSpaces_gap layout.isSpaces_gap hentries _
        (by omega) _ _ hnodup.2 ?_ ?_
      · intro other hother
        rw [List.mem_singleton]
        exact fun he => hnodup.1 (he ▸ List.mem_map_of_mem hother)
      · intro hreq field hmem
        have hcases := hrequired hreq field hmem
        rw [List.map_cons, List.mem_cons] at hcases
        rwa [List.mem_singleton]

/-! ## Whole texts -/

theorem readAll_write {r : Reader α} {v : Value} {x : α} (h : Reads r v x) (lines : Bool) :
    readAll r (write lines v) = .ok x := by
  have hread := h (if lines then some 0 else none) [] [] isSpaces_nil delimited_nil
  rw [List.nil_append, List.append_nil] at hread
  rw [readAll, write_eq_text, String.toList_ofList, hread]
  rfl

end FiniteState.Json
