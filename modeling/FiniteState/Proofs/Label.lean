import FiniteState.Label
import Mathlib.Data.List.DropRight

/-!
# Labels that are read back

A label that is written and read again is the same label if and only if its tokens could have
been read from a text in the first place: there is at least one, and none of them holds a comma
or has a blank at one of its ends. The comma is what tokens are cut at, and the blanks at the
ends of a token are lost with the one that is written behind each comma.
-/

namespace FiniteState

namespace Text

theorem trim_begins (cs : List Char) : trim cs <+: cs.dropWhile isBlank :=
  List.rdropWhile_prefix isBlank _

/-- A blank in front of a text is lost. -/
theorem trim_cons_of_isBlank {c : Char} (hc : isBlank c = true) (cs : List Char) :
    trim (c :: cs) = trim cs := by
  rw [trim, List.dropWhile_cons_of_pos hc, ← trim]

theorem mem_of_mem_trim {c : Char} {cs : List Char} (h : c ∈ trim cs) : c ∈ cs :=
  (List.dropWhile_sublist _).mem ((trim_begins cs).sublist.mem h)

theorem isBlank_head?_trim {c : Char} {cs : List Char} (h : (trim cs).head? = some c) :
    isBlank c = false := by
  have hhead : (cs.dropWhile isBlank).head? = some c := by
    obtain ⟨rest, hrest⟩ := trim_begins cs
    rw [← hrest, List.head?_append, h]
    rfl
  have hnot := List.head?_dropWhile_not isBlank cs
  rw [hhead] at hnot
  exact hnot

theorem isBlank_getLast?_trim {c : Char} {cs : List Char}
    (h : (trim cs).getLast? = some c) : isBlank c = false := by
  rw [trim, List.getLast?_reverse] at h
  have hnot := List.head?_dropWhile_not isBlank (cs.dropWhile isBlank).reverse
  rw [h] at hnot
  exact hnot

/-- A part without separators ends at the first separator behind it. -/
theorem split_append_cons {separator : Char} {part : List Char} (h : ¬ separator ∈ part)
    (cs : List Char) :
    split separator (part ++ separator :: cs) = part :: split separator cs := by
  induction part with
  | nil => exact split_cons_self separator cs
  | cons c part ih =>
      rw [List.mem_cons, not_or] at h
      rw [List.cons_append, split, ih h.2]
      exact if_neg fun heq => h.1 heq.symm

end Text

namespace Label

/-- A token that can be read: it holds no comma, and no blank stands at its ends. -/
structure IsClean (token : String) : Prop where
  comma : ¬ ',' ∈ token.toList
  first : ∀ c, token.toList.head? = some c → Text.isBlank c = false
  last : ∀ c, token.toList.getLast? = some c → Text.isBlank c = false

/-- A label that can be read. -/
def Clean (l : Label) : Prop := l.tokens ≠ [] ∧ ∀ token ∈ l.tokens, IsClean token

theorem clean_parse (source : String) : (parse source).Clean := by
  refine ⟨?_, fun token htoken => ?_⟩
  · have hne := Text.split_ne_nil ',' source.toList
    simpa [parse] using hne
  · obtain ⟨part, hpart, rfl⟩ := List.mem_map.1 htoken
    have hcomma := Text.not_mem_of_mem_split ',' _ part hpart
    constructor
    · rw [String.toList_ofList]
      exact fun hmem => hcomma (Text.mem_of_mem_trim hmem)
    · intro c hc
      rw [String.toList_ofList] at hc
      exact Text.isBlank_head?_trim hc
    · intro c hc
      rw [String.toList_ofList] at hc
      exact Text.isBlank_getLast?_trim hc

theorem isClean_singleton {c : Char} (hcomma : c ≠ ',') (hblank : Text.isBlank c = false) :
    IsClean (String.singleton c) := by
  constructor
  · simpa using Ne.symm hcomma
  · simpa using hblank
  · simpa using hblank

/-- A label that can be read lists neither commas nor blanks. -/
theorem Clean.not_separator {l : Label} (h : l.Clean) {c : Char}
    (hc : String.singleton c ∈ l.tokens) : c ≠ ',' ∧ Text.isBlank c = false := by
  have hclean := h.2 _ hc
  refine ⟨?_, hclean.first c (by simp)⟩
  rintro rfl
  exact hclean.comma (by simp)

theorem IsClean.trim_eq {token : String} (h : IsClean token) :
    Text.trim token.toList = token.toList :=
  Text.trim_eq_self _ h.first h.last

/-- The parts between the commas are the tokens, with a space in front of all but the first. -/
theorem split_render (token : String) (tokens : List String)
    (h : ∀ t ∈ token :: tokens, IsClean t) :
    Text.split ',' (render ⟨token :: tokens⟩).toList =
      token.toList :: tokens.map fun t => ' ' :: t.toList := by
  have hseparator : ", ".toList = [',', ' '] := rfl
  rw [render, String.toList_intercalate, hseparator]
  induction tokens generalizing token with
  | nil =>
      have htoken := h token List.mem_cons_self
      simpa [List.intercalate] using Text.split_eq_singleton ',' _ htoken.comma
  | cons next tokens ih =>
      obtain ⟨htoken, htokens⟩ := List.forall_mem_cons.1 h
      have hspace : ∀ cs, Text.split ',' cs = next.toList :: (tokens.map fun t => ' ' :: t.toList) →
          Text.split ',' (' ' :: cs) =
            (' ' :: next.toList) :: (tokens.map fun t => ' ' :: t.toList) := by
        intro cs hcs
        rw [Text.split, hcs]
        rfl
      rw [List.map_cons, List.map_cons, List.intercalate_cons_cons, List.append_assoc,
        List.cons_append, List.singleton_append, Text.split_append_cons htoken.comma,
        hspace _ (by simpa using ih next htokens), List.map_cons]

theorem Clean.parse_render {l : Label} (h : l.Clean) : parse l.render = l := by
  obtain ⟨tokens⟩ := l
  cases tokens with
  | nil => exact absurd rfl h.1
  | cons token tokens =>
      have hblank : Text.isBlank ' ' = true := by decide
      obtain ⟨htoken, htokens⟩ := List.forall_mem_cons.1 h.2
      rw [parse, split_render token tokens h.2, List.map_cons, htoken.trim_eq,
        String.ofList_toList, List.map_map]
      congr 2
      calc tokens.map _ = tokens.map id := List.map_congr_left fun t ht => by
            simp [Text.trim_cons_of_isBlank hblank, (htokens t ht).trim_eq]
        _ = tokens := List.map_id _

theorem parse_render_eq_iff (l : Label) : parse l.render = l ↔ l.Clean :=
  ⟨fun h => h ▸ clean_parse l.render, Clean.parse_render⟩

end Label

end FiniteState
