import FiniteState.Automaton.Complete
import FiniteState.Automaton.Validation
import FiniteState.Proofs.Alphabet
import FiniteState.Proofs.Automaton.Edges

/-!
# What validation checks

`validate_eq_ok_iff` says that validation succeeds with an alphabet exactly if the automaton
is complete and deterministic over it, and with the alphabet that was given, if one was.
The steps of the check are taken in their order, and each of them is described by what it
lets through. The checks of labels are described by the list of the characters that are on
them: it holds no character twice and none that was seen before.
-/

namespace FiniteState

/-- The tokens that are looked at on a label. Without any, it is as if there were an empty one. -/
def Label.shown (l : Label) : List String := if l.tokens = [] then [""] else l.tokens

namespace Automaton

/-! ## Labels -/

theorem tokenSymbols_cons (state : String) (seen : Alphabet) (token : String)
    (tokens : List String) (T : Alphabet) :
    tokenSymbols state seen (token :: tokens) = .ok T ↔
      ∃ c, symbolOf? token = some c ∧ ¬ c ∈ seen ∧
        tokenSymbols state (seen.insert c) tokens = .ok T := by
  rw [tokenSymbols]
  cases h : symbolOf? token with
  | none =>
      have hfail : ∀ d e f : Defect, (if token = "" then Except.error d
          else if token = epsilonToken then .error e else .error f) ≠ Except.ok T := by
        intro d e f
        split
        · simp
        · split
          · simp
          · simp
      simp only [reduceCtorEq, false_and, exists_false, iff_false]
      exact hfail _ _ _
  | some c =>
      obtain ⟨hc, rfl⟩ := (symbolOf?_eq_some_iff token c).1 h
      have hempty : ¬ String.singleton c = "" := by
        intro he
        have hlist := congrArg String.toList he
        simp at hlist
      rw [if_neg hempty, if_neg (singleton_ne_epsilonToken hc)]
      by_cases hseen : c ∈ seen
      · simp [hseen]
      · simp [hseen]

theorem tokenSymbols_eq_ok_iff (state : String) (seen : Alphabet) (tokens : List String)
    (T : Alphabet) : tokenSymbols state seen tokens = .ok T ↔
      ∃ cs : List Char, tokens = cs.map String.singleton ∧
        (∀ c ∈ cs, c ≠ epsilonChar ∧ ¬ c ∈ seen) ∧ cs.Nodup ∧ T = seen.insertAll cs := by
  induction tokens generalizing seen with
  | nil =>
      rw [tokenSymbols, Except.ok.injEq]
      constructor
      · intro h
        exact ⟨[], rfl, by simp, List.nodup_nil, h.symm⟩
      · intro h
        obtain ⟨cs, hcs, -, -, rfl⟩ := h
        rw [List.map_eq_nil_iff.1 hcs.symm]
        rfl
  | cons token tokens ih =>
      rw [tokenSymbols_cons]
      simp only [ih, symbolOf?_eq_some_iff]
      constructor
      · intro h
        obtain ⟨c, ⟨hc, rfl⟩, hseen, cs, rfl, hcs, hnodup, rfl⟩ := h
        refine ⟨c :: cs, rfl, ?_, List.nodup_cons.2 ⟨?_, hnodup⟩, rfl⟩
        · intro d hd
          rcases List.mem_cons.1 hd with rfl | hd
          · exact ⟨hc, hseen⟩
          · have hnot := (hcs d hd).2
            rw [Alphabet.mem_insert, not_or] at hnot
            exact ⟨(hcs d hd).1, hnot.2⟩
        · intro hmem
          exact (hcs c hmem).2 ((Alphabet.mem_insert _ _ _).2 (.inl rfl))
      · intro h
        obtain ⟨cs, hcs, hall, hnodup, rfl⟩ := h
        cases cs with
        | nil => cases hcs
        | cons c cs =>
            obtain ⟨rfl, rfl⟩ := List.cons.inj hcs
            have hc := hall c List.mem_cons_self
            have hnodup' := List.nodup_cons.1 hnodup
            refine ⟨c, ⟨hc.1, rfl⟩, hc.2, cs, rfl, ?_, hnodup'.2, rfl⟩
            intro d hd
            refine ⟨(hall d (List.mem_cons_of_mem c hd)).1, ?_⟩
            rw [Alphabet.mem_insert, not_or]
            exact ⟨fun he => hnodup'.1 (he ▸ hd), (hall d (List.mem_cons_of_mem c hd)).2⟩

theorem tokenSymbols_append (state : String) (seen : Alphabet) (tokens more : List String) :
    tokenSymbols state seen (tokens ++ more) =
      match tokenSymbols state seen tokens with
      | .error d => .error d
      | .ok T => tokenSymbols state T more := by
  induction tokens generalizing seen with
  | nil => rfl
  | cons token tokens ih =>
      rw [List.cons_append, tokenSymbols, tokenSymbols]
      split
      · rfl
      · split
        · rfl
        · cases symbolOf? token with
          | none => rfl
          | some c =>
              by_cases hmem : c ∈ seen
              · simp [hmem]
              · simpa [hmem] using ih (seen.insert c)

/-- Labels are looked at as if their tokens stood on one label. -/
theorem labelSymbols_eq_tokenSymbols (state : String) (seen : Alphabet) (labels : List Label) :
    labelSymbols state seen labels = tokenSymbols state seen (labels.flatMap Label.shown) := by
  induction labels generalizing seen with
  | nil => rfl
  | cons l labels ih =>
      rw [labelSymbols, List.flatMap_cons, tokenSymbols_append]
      by_cases hl : l.tokens = []
      · simp [hl, Label.shown, tokenSymbols]
      · have hl' : l.tokens.isEmpty = false := by simpa using hl
        rw [Label.shown, if_neg hl, hl']
        cases tokenSymbols state seen l.tokens with
        | error d => rfl
        | ok T => exact ih T

theorem shown_eq_map_singleton_iff (labels : List Label) (cs : List Char) :
    labels.flatMap Label.shown = cs.map String.singleton ↔
      (∀ l ∈ labels, l.tokens ≠ []) ∧ labels.flatMap Label.tokens = cs.map String.singleton := by
  have hshown : (∀ l ∈ labels, l.tokens ≠ []) →
      labels.flatMap Label.shown = labels.flatMap Label.tokens := fun hne =>
    List.flatMap_congr fun l hl => if_neg (hne l hl)
  constructor
  · intro h
    have hne : ∀ l ∈ labels, l.tokens ≠ [] := by
      intro l hl hnil
      have hmem : "" ∈ cs.map String.singleton :=
        h ▸ List.mem_flatMap.2 ⟨l, hl, by simp [Label.shown, hnil]⟩
      obtain ⟨c, -, hc⟩ := List.mem_map.1 hmem
      exact absurd (congrArg String.length hc) (by simp)
    exact ⟨hne, hshown hne ▸ h⟩
  · rintro ⟨hne, h⟩
    rw [hshown hne, h]

theorem labelSymbols_eq_ok_iff (state : String) (seen : Alphabet) (labels : List Label)
    (T : Alphabet) : labelSymbols state seen labels = .ok T ↔
      (∀ l ∈ labels, l.tokens ≠ []) ∧
        ∃ cs : List Char, labels.flatMap Label.tokens = cs.map String.singleton ∧
          (∀ c ∈ cs, c ≠ epsilonChar ∧ ¬ c ∈ seen) ∧ cs.Nodup ∧ T = seen.insertAll cs := by
  rw [labelSymbols_eq_tokenSymbols, tokenSymbols_eq_ok_iff]
  simp only [shown_eq_map_singleton_iff, and_assoc, exists_and_left]

/-- Tokens that are symbols are written with single characters. -/
theorem exists_eq_map_singleton (tokens : List String)
    (h : ∀ token ∈ tokens, IsSymbolToken token) :
    ∃ cs : List Char, tokens = cs.map String.singleton ∧ ∀ c ∈ cs, c ≠ epsilonChar := by
  induction tokens with
  | nil => exact ⟨[], rfl, by simp⟩
  | cons token tokens ih =>
      obtain ⟨c, hc, rfl⟩ := h token List.mem_cons_self
      obtain ⟨cs, rfl, hcs⟩ := ih fun token ht => h token (List.mem_cons_of_mem _ ht)
      refine ⟨c :: cs, rfl, ?_⟩
      intro d hd
      rcases List.mem_cons.1 hd with rfl | hd
      · exact hc
      · exact hcs d hd

theorem leavingTokens_eq (a : Automaton) (name : String) :
    a.leavingTokens name =
      ((a.outgoing name).map Transition.label).flatMap Label.tokens := by
  rw [leavingTokens, List.flatMap_map]

/-- The symbols of one state, told by how often they occur on what leaves the state. -/
theorem labelSymbols_outgoing_eq_ok_iff (a : Automaton) (name : String) (S : Alphabet) :
    labelSymbols name .empty ((a.outgoing name).map Transition.label) = .ok S ↔
      (∀ t ∈ a.outgoing name, t.label.tokens ≠ []) ∧
      (∀ t ∈ a.outgoing name, ∀ token ∈ t.label.tokens, IsSymbolToken token) ∧
      ∀ c, (a.leavingTokens name).count (String.singleton c) = if c ∈ S then 1 else 0 := by
  have hcount : ∀ (cs : List Char) (c : Char),
      (cs.map String.singleton).count (String.singleton c) = cs.count c := fun cs c =>
    List.count_map_of_injective cs String.singleton singleton_injective c
  have htokens : ∀ token, token ∈ a.leavingTokens name ↔
      ∃ t ∈ a.outgoing name, token ∈ t.label.tokens := fun token => List.mem_flatMap
  rw [labelSymbols_eq_ok_iff, ← leavingTokens_eq, List.forall_mem_map]
  refine and_congr_right fun _ => ?_
  constructor
  · intro h
    obtain ⟨cs, hcs, hall, hnodup, rfl⟩ := h
    constructor
    · intro t ht token htoken
      have hmem := (htokens token).2 ⟨t, ht, htoken⟩
      rw [hcs] at hmem
      obtain ⟨c, hc, rfl⟩ := List.mem_map.1 hmem
      exact ⟨c, (hall c hc).1, rfl⟩
    · intro c
      rw [hcs, hcount]
      by_cases hc : c ∈ cs
      · simp [hc, List.count_eq_one_of_mem hnodup hc]
      · simp [hc, List.count_eq_zero_of_not_mem hc]
  · intro h
    obtain ⟨hsymbols, hcounts⟩ := h
    obtain ⟨cs, hcs, hne⟩ := exists_eq_map_singleton (a.leavingTokens name) (by
      intro token htoken
      obtain ⟨t, ht, hmem⟩ := (htokens token).1 htoken
      exact hsymbols t ht token hmem)
    have hmem : ∀ c, cs.count c = if c ∈ S then 1 else 0 := by
      intro c
      rw [← hcounts c, hcs, hcount]
    refine ⟨cs, hcs, fun c hc => ⟨hne c hc, Alphabet.not_mem_empty c⟩, ?_, ?_⟩
    · rw [List.nodup_iff_count_le_one]
      intro c
      rw [hmem c]
      split
      · exact Nat.le_refl 1
      · exact Nat.zero_le 1
    · refine Alphabet.ext_mem fun c => ?_
      have hiff : c ∈ Alphabet.empty.insertAll cs ↔ c ∈ cs := by simp
      rw [hiff, ← List.count_pos_iff, hmem c]
      by_cases hc : c ∈ S
      · simp [hc]
      · simp [hc]

/-! ## States -/

theorem symbolTable_cons_eq_ok_iff (a : Automaton) (name : String) (names : List String)
    (table : List (String × Alphabet)) : a.symbolTable (name :: names) = .ok table ↔
      ∃ S rest, labelSymbols name .empty ((a.outgoing name).map Transition.label) = .ok S ∧
        a.symbolTable names = .ok rest ∧ (name, S) :: rest = table := by
  rw [symbolTable]
  cases labelSymbols name .empty ((a.outgoing name).map Transition.label) with
  | error d => simp
  | ok S =>
      cases a.symbolTable names with
      | error d => simp
      | ok rest => simp

theorem symbolTable_eq_ok_iff (a : Automaton) (names : List String)
    (table : List (String × Alphabet)) : a.symbolTable names = .ok table ↔
      table.map Prod.fst = names ∧ ∀ e ∈ table,
        labelSymbols e.1 .empty ((a.outgoing e.1).map Transition.label) = .ok e.2 := by
  induction names generalizing table with
  | nil =>
      rw [symbolTable, Except.ok.injEq, List.map_eq_nil_iff]
      constructor
      · intro h
        subst h
        exact ⟨rfl, by simp⟩
      · exact fun h => h.1.symm
  | cons name names ih =>
      rw [symbolTable_cons_eq_ok_iff]
      simp only [ih]
      constructor
      · intro h
        obtain ⟨S, rest, hlabels, ⟨hnames, hall⟩, rfl⟩ := h
        refine ⟨by rw [List.map_cons, hnames], ?_⟩
        intro e he
        rcases List.mem_cons.1 he with rfl | he
        · exact hlabels
        · exact hall e he
      · intro h
        obtain ⟨hnames, hall⟩ := h
        cases table with
        | nil => cases hnames
        | cons e table =>
            obtain ⟨rfl, htail⟩ := List.cons.inj hnames
            exact ⟨e.2, table, hall e List.mem_cons_self,
              ⟨htail, fun e he => hall e (List.mem_cons_of_mem _ he)⟩, rfl⟩

theorem without_isEmpty_iff (S T : Alphabet) :
    (S.without T).isEmpty = true ↔ ∀ c ∈ S, c ∈ T := by
  rw [List.isEmpty_iff, List.eq_nil_iff_forall_not_mem]
  simp only [Alphabet.mem_without, not_and, not_not]

theorem checkSymbols_eq_ok_iff (S : Alphabet) (table : List (String × Alphabet)) :
    checkSymbols S table = .ok () ↔ ∀ e ∈ table, e.2 = S := by
  induction table with
  | nil => simp [checkSymbols]
  | cons e table ih =>
      obtain ⟨name, T⟩ := e
      have hsame : T = S ↔
          (S.without T).isEmpty = true ∧ (T.without S).isEmpty = true := by
        rw [without_isEmpty_iff, without_isEmpty_iff]
        constructor
        · intro h
          subst h
          exact ⟨fun c hc => hc, fun c hc => hc⟩
        · intro h
          exact Alphabet.ext_mem fun c => ⟨h.2 c, h.1 c⟩
      rw [checkSymbols, List.forall_mem_cons, hsame, ← ih]
      by_cases hmissing : (S.without T).isEmpty = true
      · by_cases hextra : (T.without S).isEmpty = true
        · simp [hmissing, hextra]
        · simp [hmissing, hextra]
      · simp [hmissing]

theorem largest_self (S : Alphabet) (sets : List Alphabet) (h : ∀ T ∈ sets, T = S) :
    largest S sets = S := by
  induction sets with
  | nil => rfl
  | cons T sets ih =>
      obtain ⟨rfl, hsets⟩ := List.forall_mem_cons.1 h
      rw [largest, if_neg (Nat.lt_irrefl _), ih hsets]

/-- Any alphabet takes the place of the empty one. -/
theorem largest_empty_cons (T : Alphabet) (sets : List Alphabet) :
    largest .empty (T :: sets) = largest T sets := by
  have hfirst : (if Alphabet.empty.size < T.size then T else Alphabet.empty) = T := by
    split
    · rfl
    · next hsize =>
        refine Alphabet.ext_mem fun c => ?_
        have hnil : T.symbols = [] :=
          List.eq_nil_of_length_eq_zero (Nat.le_zero.1 (Nat.not_lt.1 hsize))
        simp [Alphabet.mem_def, hnil, Alphabet.empty]
  rw [largest, hfirst]

/-- The largest of equal alphabets is any of them. -/
theorem largest_empty (S : Alphabet) (sets : List Alphabet) (hne : sets ≠ [])
    (h : ∀ T ∈ sets, T = S) : largest .empty sets = S := by
  cases sets with
  | nil => exact absurd rfl hne
  | cons T sets =>
      obtain ⟨rfl, hsets⟩ := List.forall_mem_cons.1 h
      rw [largest_empty_cons, largest_self T sets hsets]

/-! ## The whole check -/

theorem checkStart_eq_ok_iff (a : Automaton) :
    a.checkStart = .ok () ↔ a.starts.length = 1 := by
  have hlength : (stateNames a.starts).length = a.starts.length := List.length_map _
  rw [← hlength, checkStart]
  split
  · next h => simp [h]
  · next h => simp [h]
  · next hnil hone =>
      simp only [reduceCtorEq, false_iff]
      intro h
      obtain ⟨name, hname⟩ := List.length_eq_one_iff.1 h
      exact hone name hname

theorem hasState_iff (a : Automaton) (name : String) :
    a.hasState name = true ↔ name ∈ a.names :=
  List.contains_iff_mem

theorem checkEndpoints_eq_ok_iff (a : Automaton) : a.checkEndpoints = .ok () ↔
    ∀ t ∈ a.transitions, t.source ∈ a.names ∧ t.target ∈ a.names := by
  have hnone : a.unknownEndpoints = [] ↔
      ∀ t ∈ a.transitions, t.source ∈ a.names ∧ t.target ∈ a.names := by
    rw [unknownEndpoints, List.filter_eq_nil_iff]
    simp only [List.mem_flatMap, List.mem_cons, List.not_mem_nil, or_false,
      Bool.not_eq_true', Bool.not_eq_false, hasState_iff]
    constructor
    · intro h t ht
      exact ⟨h _ ⟨t, ht, .inl rfl⟩, h _ ⟨t, ht, .inr rfl⟩⟩
    · intro h name hname
      obtain ⟨t, ht, rfl | rfl⟩ := hname
      · exact (h t ht).1
      · exact (h t ht).2
  rw [← hnone, checkEndpoints]
  split
  · next h => simp [h]
  · next h => simp [h]

/-- The last steps of the check: all states have the same symbols, and there are some. -/
theorem validate_eq_ok_iff_symbols (a : Automaton) (given : Option Alphabet) (S : Alphabet) :
    a.validate given = .ok S ↔
      a.starts.length = 1 ∧
      (∀ t ∈ a.transitions, t.source ∈ a.names ∧ t.target ∈ a.names) ∧
      (∃ table, a.symbolTable a.names = .ok table ∧
        given.getD (largest .empty (table.map Prod.snd)) = S ∧ ∀ e ∈ table, e.2 = S) ∧
      a.transitions ≠ [] := by
  rw [← checkStart_eq_ok_iff, ← checkEndpoints_eq_ok_iff, validate]
  cases hstart : a.checkStart with
  | error d => simp
  | ok u =>
      cases hends : a.checkEndpoints with
      | error d => simp
      | ok u =>
          cases htable : a.symbolTable a.names with
          | error d => simp
          | ok table =>
              simp only [Except.ok.injEq, true_and, exists_eq_left', ← checkSymbols_eq_ok_iff]
              cases hsymbols :
                  checkSymbols (given.getD (largest .empty (table.map Prod.snd))) table with
              | error d =>
                  simp only [reduceCtorEq, false_iff, not_and]
                  intro h
                  obtain ⟨rfl, h⟩ := h
                  rw [hsymbols] at h
                  cases h
              | ok u =>
                  by_cases hnone : a.transitions = []
                  · simp [hnone]
                  · have hnone' : a.transitions.isEmpty = false := by simpa using hnone
                    simp only [hnone', Bool.false_eq_true, if_false, Except.ok.injEq, ne_eq,
                      hnone, not_false_eq_true, and_true]
                    constructor
                    · intro h
                      exact ⟨h, h ▸ hsymbols⟩
                    · exact fun h => h.1

theorem mem_outgoing (a : Automaton) (name : String) (t : Transition) :
    t ∈ a.outgoing name ↔ t ∈ a.transitions ∧ t.source = name := by
  rw [outgoing, List.mem_filter, beq_iff_eq]

/-- Completeness, state by state. -/
theorem isComplete_iff_labelSymbols (a : Automaton) (S : Alphabet) :
    a.IsComplete S ↔ a.starts.length = 1 ∧
      (∀ t ∈ a.transitions, t.source ∈ a.names ∧ t.target ∈ a.names) ∧
      (∀ name ∈ a.names,
        labelSymbols name .empty ((a.outgoing name).map Transition.label) = .ok S) ∧
      a.transitions ≠ [] := by
  simp only [labelSymbols_outgoing_eq_ok_iff]
  constructor
  · intro h
    refine ⟨h.start, h.ends, fun name hname => ⟨?_, ?_, h.count_leaving name hname⟩,
      h.transitions_ne_nil⟩
    · exact fun t ht => h.tokens_ne_nil t ((mem_outgoing a name t).1 ht).1
    · exact fun t ht => h.isSymbolToken t ((mem_outgoing a name t).1 ht).1
  · intro h
    obtain ⟨hstart, hends, hlabels, hne⟩ := h
    have hleaving : ∀ t ∈ a.transitions, t ∈ a.outgoing t.source := fun t ht =>
      (mem_outgoing a _ t).2 ⟨ht, rfl⟩
    refine ⟨hstart, hends, ?_, ?_, fun name hname => (hlabels name hname).2.2, hne⟩
    · exact fun t ht => (hlabels t.source (hends t ht).1).1 t (hleaving t ht)
    · exact fun t ht => (hlabels t.source (hends t ht).1).2.1 t (hleaving t ht)

theorem names_ne_nil {a : Automaton} (h : a.starts.length = 1) : a.names ≠ [] := by
  intro hnil
  have hnone : a.states = [] := by simpa [names, stateNames] using hnil
  rw [starts, hnone] at h
  cases h

/-- Validation succeeds exactly on the complete deterministic automata. -/
theorem validate_eq_ok_iff (a : Automaton) (given : Option Alphabet) (S : Alphabet) :
    a.validate given = .ok S ↔ a.IsComplete S ∧ ∀ T, given = some T → T = S := by
  rw [validate_eq_ok_iff_symbols, isComplete_iff_labelSymbols]
  constructor
  · intro h
    obtain ⟨hstart, hends, ⟨table, htable, hgiven, hsame⟩, hne⟩ := h
    obtain ⟨hnames, hall⟩ := (symbolTable_eq_ok_iff a a.names table).1 htable
    refine ⟨⟨hstart, hends, ?_, hne⟩, ?_⟩
    · intro name hname
      rw [← hnames] at hname
      obtain ⟨e, he, rfl⟩ := List.mem_map.1 hname
      rw [hall e he, hsame e he]
    · intro T hT
      subst hT
      exact hgiven
  · intro h
    obtain ⟨⟨hstart, hends, hlabels, hne⟩, hgiven⟩ := h
    have htable : a.symbolTable a.names = .ok (a.names.map fun name => (name, S)) := by
      refine (symbolTable_eq_ok_iff a a.names _).2 ⟨?_, ?_⟩
      · rw [List.map_map]
        exact List.map_id _
      · intro e he
        obtain ⟨name, hname, rfl⟩ := List.mem_map.1 he
        exact hlabels name hname
    have hsame : ∀ e ∈ a.names.map fun name => (name, S), e.2 = S := by
      intro e he
      obtain ⟨name, -, rfl⟩ := List.mem_map.1 he
      rfl
    refine ⟨hstart, hends, ⟨_, htable, ?_, hsame⟩, hne⟩
    cases given with
    | some T => exact hgiven T rfl
    | none =>
        refine largest_empty S _ ?_ ?_
        · intro hnil
          exact names_ne_nil hstart (List.map_eq_nil_iff.1 (List.map_eq_nil_iff.1 hnil))
        · intro T hT
          obtain ⟨e, he, rfl⟩ := List.mem_map.1 hT
          exact hsame e he

theorem validate_none_eq_ok_iff (a : Automaton) (S : Alphabet) :
    a.validate none = .ok S ↔ a.IsComplete S := by
  rw [validate_eq_ok_iff]
  simp

/-! ## What completeness gives -/

namespace IsComplete

variable {a : Automaton} {S : Alphabet}

theorem states_ne_nil (h : a.IsComplete S) : ∃ s ∈ a.states, s.starting = true := by
  have hne : a.starts ≠ [] := by
    intro hnil
    have hone := h.start
    rw [hnil] at hone
    cases hone
  obtain ⟨s, hs⟩ := List.exists_mem_of_ne_nil _ hne
  exact ⟨s, List.mem_filter.1 hs⟩

/-- A symbol of the alphabet stands on a transition of every state, and no other symbol
stands anywhere. -/
theorem mem_leavingTokens_iff (h : a.IsComplete S) {name : String} (hname : name ∈ a.names)
    (c : Char) : String.singleton c ∈ a.leavingTokens name ↔ c ∈ S := by
  rw [← List.count_pos_iff, h.count_leaving name hname c]
  by_cases hc : c ∈ S
  · simp [hc]
  · simp [hc]

theorem mem_leavingTokens {u : Transition} (hu : u ∈ a.transitions) {token : String}
    (htoken : token ∈ u.label.tokens) : token ∈ a.leavingTokens u.source :=
  List.mem_flatMap.2 ⟨u, (mem_outgoing a u.source u).2 ⟨hu, rfl⟩, htoken⟩

theorem epsilon_not_mem (h : a.IsComplete S) : ¬ epsilonChar ∈ S := by
  intro hmem
  obtain ⟨s, hs, -⟩ := h.states_ne_nil
  have hname : s.name ∈ a.names := List.mem_map_of_mem hs
  obtain ⟨u, hu, htoken⟩ := List.mem_flatMap.1 ((h.mem_leavingTokens_iff hname _).2 hmem)
  obtain ⟨c, hc, heq⟩ := h.isSymbolToken u ((mem_outgoing a _ u).1 hu).1 _ htoken
  exact hc (singleton_injective heq).symm

theorem symbols_ne_nil (h : a.IsComplete S) : S.symbols ≠ [] := by
  obtain ⟨u, hu⟩ := List.exists_mem_of_ne_nil _ h.transitions_ne_nil
  obtain ⟨token, htoken⟩ := List.exists_mem_of_ne_nil _ (h.tokens_ne_nil u hu)
  obtain ⟨c, -, rfl⟩ := h.isSymbolToken u hu token htoken
  have hmem := (h.mem_leavingTokens_iff (h.ends u hu).1 c).1 (mem_leavingTokens hu htoken)
  exact List.ne_nil_of_mem hmem

end IsComplete

/-- Without a given alphabet, validation succeeds with `S` exactly on the automata that are
complete and deterministic over `S`, and there is something in `S` then. With a given alphabet
it succeeds exactly if it does so without one, and with this alphabet, which it gives back. -/
theorem validate_iff_complete (a : Automaton) (S : Alphabet) :
    (a.validate none = .ok S ↔ a.IsComplete S) ∧
      (a.validate none = .ok S → S.symbols ≠ []) ∧
      ((∃ T, a.validate (some S) = .ok T) ↔ a.validate none = .ok S) ∧
      ∀ T, a.validate (some S) = .ok T → T = S := by
  have hgiven : ∀ T, a.validate (some S) = .ok T ↔ a.IsComplete T ∧ S = T := by
    intro T
    rw [validate_eq_ok_iff]
    simp
  refine ⟨validate_none_eq_ok_iff a S, fun h => ?_, ?_, fun T hT => ((hgiven T).1 hT).2.symm⟩
  · exact ((validate_none_eq_ok_iff a S).1 h).symbols_ne_nil
  · rw [validate_none_eq_ok_iff]
    constructor
    · rintro ⟨T, hT⟩
      obtain ⟨hcomplete, rfl⟩ := (hgiven T).1 hT
      exact hcomplete
    · exact fun h => ⟨S, (hgiven S).2 ⟨h, rfl⟩⟩

end Automaton

end FiniteState
