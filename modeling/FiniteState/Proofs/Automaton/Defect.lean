import FiniteState.Proofs.Automaton.Validation
import FiniteState.Proofs.Table.Lookup

/-!
# Which defect is named

An automaton may have many defects, and validation names one of them. `validate_eq_error_iff` says
which: the kinds of defects have an order, and within a kind the states, the transitions and the
tokens are looked at in theirs. Each kind is described here by what is wrong with an automaton,
without regard to how it is found out, and `Earliest` picks the first thing that is wrong.

The alphabet that is taken for granted if none is given is the first of the largest sets of symbols
that leave one state. A state that has all symbols of it has no others, or it would have more.
-/

namespace FiniteState

/-- What is wrong with a member of a list may depend on the members before it. This is what is
wrong with the first member with which something is wrong. -/
def Earliest {α δ : Type} (wrong : List α → α → δ → Prop) (xs : List α) (d : δ) : Prop :=
  ∃ before x after, xs = before ++ x :: after ∧ wrong before x d ∧
    ∀ ys y zs, before = ys ++ y :: zs → ∀ e, ¬ wrong ys y e

namespace Earliest

variable {α δ : Type} {wrong : List α → α → δ → Prop} {d : δ}

theorem nil_iff : Earliest wrong [] d ↔ False := by
  simp [Earliest]

theorem cons_iff (x : α) (xs : List α) : Earliest wrong (x :: xs) d ↔
    wrong [] x d ∨
      (∀ e, ¬ wrong [] x e) ∧ Earliest (fun before => wrong (x :: before)) xs d := by
  constructor
  · rintro ⟨before, y, after, hsplit, hy, hbefore⟩
    cases before with
    | nil =>
        obtain ⟨rfl, -⟩ := List.cons.inj hsplit
        exact .inl hy
    | cons z before =>
        obtain ⟨rfl, htail⟩ := List.cons.inj hsplit
        refine .inr ⟨hbefore [] x before rfl, before, y, after, htail, hy, ?_⟩
        rintro ys z zs rfl
        exact hbefore (x :: ys) z zs rfl
  · rintro (hx | ⟨hx, before, y, after, rfl, hy, hbefore⟩)
    · exact ⟨[], x, xs, rfl, hx, by simp⟩
    · refine ⟨x :: before, y, after, rfl, hy, ?_⟩
      intro ys z zs hsplit
      cases ys with
      | nil =>
          obtain ⟨rfl, -⟩ := List.cons.inj hsplit
          exact hx
      | cons u ys =>
          obtain ⟨rfl, htail⟩ := List.cons.inj hsplit
          exact hbefore ys z zs htail

/-- If something is wrong with the first member, it is that. -/
theorem cons_of_wrong {x : α} {d₀ : δ} (h : ∀ e, wrong [] x e ↔ e = d₀) (xs : List α) :
    Earliest wrong (x :: xs) d ↔ d = d₀ := by
  rw [cons_iff, h]
  simp [h]

/-- If nothing is wrong with the first member, it is passed over. -/
theorem cons_of_sound {x : α} (h : ∀ e, ¬ wrong [] x e) (xs : List α) :
    Earliest wrong (x :: xs) d ↔ Earliest (fun before => wrong (x :: before)) xs d := by
  rw [cons_iff]
  simp [h]

end Earliest

/-! ## Kinds of defects -/

/-- The first of the largest alphabets of a list. -/
def FirstLargest (sets : List Alphabet) (S : Alphabet) : Prop :=
  ∃ before after, sets = before ++ S :: after ∧ (∀ T ∈ before, T.size < S.size) ∧
    ∀ T ∈ after, T.size ≤ S.size

namespace FirstLargest

theorem nil_iff (S : Alphabet) : FirstLargest [] S ↔ False := by
  simp [FirstLargest]

/-- It is the first, if none is larger; else it is larger than the first. -/
theorem cons_iff (T : Alphabet) (sets : List Alphabet) (S : Alphabet) :
    FirstLargest (T :: sets) S ↔
      (S = T ∧ ∀ U ∈ sets, U.size ≤ T.size) ∨ (T.size < S.size ∧ FirstLargest sets S) := by
  constructor
  · rintro ⟨before, after, hsplit, hbefore, hafter⟩
    cases before with
    | nil =>
        obtain ⟨rfl, rfl⟩ := List.cons.inj hsplit
        exact .inl ⟨rfl, hafter⟩
    | cons U before =>
        obtain ⟨rfl, rfl⟩ := List.cons.inj hsplit
        obtain ⟨hT, hbefore⟩ := List.forall_mem_cons.1 hbefore
        exact .inr ⟨hT, before, after, rfl, hbefore, hafter⟩
  · rintro (⟨rfl, h⟩ | ⟨hT, before, after, rfl, hbefore, hafter⟩)
    · exact ⟨[], sets, rfl, by simp, h⟩
    · exact ⟨T :: before, after, rfl, List.forall_mem_cons.2 ⟨hT, hbefore⟩, hafter⟩

theorem size_le {sets : List Alphabet} {S T : Alphabet} (h : FirstLargest sets S)
    (hT : T ∈ sets) : T.size ≤ S.size := by
  obtain ⟨before, after, rfl, hbefore, hafter⟩ := h
  rcases List.mem_append.1 hT with hT | hT
  · exact Nat.le_of_lt (hbefore T hT)
  · rcases List.mem_cons.1 hT with rfl | hT
    · exact Nat.le_refl _
    · exact hafter T hT

/-- One that is larger than the one before it takes its place. -/
theorem cons_cons_iff_of_lt {T U : Alphabet} (h : T.size < U.size) (sets : List Alphabet)
    (S : Alphabet) : FirstLargest (T :: U :: sets) S ↔ FirstLargest (U :: sets) S := by
  rw [cons_iff T]
  constructor
  · rintro (⟨-, hall⟩ | ⟨-, hS⟩)
    · exact absurd h (Nat.not_lt.2 (hall U List.mem_cons_self))
    · exact hS
  · intro hS
    exact .inr ⟨Nat.lt_of_lt_of_le h (hS.size_le List.mem_cons_self), hS⟩

/-- One that is not larger than the one before it does not count. -/
theorem cons_cons_iff_of_le {T U : Alphabet} (h : U.size ≤ T.size) (sets : List Alphabet)
    (S : Alphabet) : FirstLargest (T :: U :: sets) S ↔ FirstLargest (T :: sets) S := by
  rw [cons_iff T, cons_iff T, cons_iff U, List.forall_mem_cons, and_iff_right h]
  refine or_congr Iff.rfl (and_congr_right fun hS => ?_)
  constructor
  · rintro (⟨rfl, -⟩ | ⟨-, hS'⟩)
    · exact absurd hS (Nat.not_lt.2 h)
    · exact hS'
  · exact fun hS' => .inr ⟨Nat.lt_of_le_of_lt h hS, hS'⟩

end FirstLargest

/-- The characters with a property, in order. -/
structure SortedList (p : Char → Prop) (cs : List Char) : Prop where
  increasing : cs.Pairwise (· < ·)
  mem_iff : ∀ c, c ∈ cs ↔ p c

theorem SortedList.unique {p : Char → Prop} {cs ds : List Char} (hcs : SortedList p cs)
    (hds : SortedList p ds) : cs = ds :=
  hcs.increasing.eq_of_mem_iff hds.increasing fun c =>
    (hcs.mem_iff c).trans (hds.mem_iff c).symm

theorem SortedList.eq_nil {p : Char → Prop} {cs : List Char} (hcs : SortedList p cs)
    (hp : ∀ c, ¬ p c) : cs = [] :=
  List.eq_nil_iff_forall_not_mem.2 fun c hc => hp c ((hcs.mem_iff c).1 hc)

theorem Alphabet.sortedList_without (S T : Alphabet) :
    SortedList (fun c => c ∈ S ∧ ¬ c ∈ T) (S.without T) :=
  ⟨S.increasing.filter _, S.mem_without T⟩

namespace Automaton

/-- There is no start state, or there are several. -/
inductive StartDefect (a : Automaton) : Defect → Prop
  | none (h : a.starts = []) : StartDefect a .noStartState
  | several (h : 2 ≤ a.starts.length) :
      StartDefect a (.multipleStartStates (stateNames a.starts))

/-- A transition begins or ends at no state. Of one transition, the beginning comes first. -/
def EndDefect (a : Automaton) : Defect → Prop :=
  Earliest (fun _ name d => ¬ name ∈ a.names ∧ d = .unknownState name)
    (a.transitions.flatMap fun t => [t.source, t.target])

/-- What is wrong with a token on what leaves a state, behind the tokens `before`. -/
inductive TokenDefect (state : String) (before : List String) (token : String) : Defect → Prop
  | empty (h : token = "") : TokenDefect state before token (.emptyLabel state)
  | epsilon (h : token = epsilonToken) : TokenDefect state before token (.epsilon state)
  | multiChar (h : 2 ≤ token.length) :
      TokenDefect state before token (.multiCharSymbol state token)
  | duplicate (c : Char) (hc : c ≠ epsilonChar) (htoken : token = String.singleton c)
      (h : token ∈ before) : TokenDefect state before token (.duplicateSymbol state c)

/-- Something is wrong with the labels of the transitions that leave a state. -/
def LabelDefect (a : Automaton) (state : String) : Defect → Prop :=
  Earliest (TokenDefect state) ((a.outgoing state).flatMap fun t => t.label.shown)

/-- The symbols of the transitions that leave a state. -/
def symbolsAt (a : Automaton) (state : String) : Alphabet :=
  .ofList ((a.outgoing state).flatMap fun t => t.label.symbols)

/-- The alphabet that the symbols of a state are compared with: the given one, or else the first
of the largest sets of symbols that leave one state. -/
def Supposes (a : Automaton) (given : Option Alphabet) (S : Alphabet) : Prop :=
  match given with
  | some T => S = T
  | none => FirstLargest (a.names.map a.symbolsAt) S

/-- The symbols of a state are not those of the alphabet `S`. -/
inductive SymbolDefect (a : Automaton) (S : Alphabet) (state : String) : Defect → Prop
  | missing (cs : List Char) (hne : cs ≠ [])
      (h : SortedList (fun c => c ∈ S ∧ ¬ c ∈ a.symbolsAt state) cs) :
      SymbolDefect a S state (.missingSymbols state cs)
  | extra (cs : List Char) (hall : ∀ c ∈ S, c ∈ a.symbolsAt state) (hne : cs ≠ [])
      (h : SortedList (fun c => c ∈ a.symbolsAt state ∧ ¬ c ∈ S) cs) :
      SymbolDefect a S state (.extraSymbols state cs)

/-- All that can be wrong with an automaton, kind by kind. -/
def defectKinds (a : Automaton) (given : Option Alphabet) : List (Defect → Prop) :=
  [a.StartDefect, a.EndDefect, Earliest (fun _ state => a.LabelDefect state) a.names,
    fun d => ∃ S, a.Supposes given S ∧ Earliest (fun _ state => a.SymbolDefect S state) a.names d,
    fun d => a.transitions = [] ∧ d = .noTransitions]

variable {a : Automaton} {d : Defect}

/-! ## Start states and ends -/

theorem checkStart_eq_error_iff : a.checkStart = .error d ↔ a.StartDefect d := by
  have hlength : (stateNames a.starts).length = a.starts.length := List.length_map _
  have hdefect : a.StartDefect d ↔ (a.starts.length = 0 ∧ d = .noStartState) ∨
      (2 ≤ a.starts.length ∧ d = .multipleStartStates (stateNames a.starts)) := by
    constructor
    · rintro (h | h)
      · exact .inl ⟨by rw [h]; rfl, rfl⟩
      · exact .inr ⟨h, rfl⟩
    · rintro (⟨h, rfl⟩ | ⟨h, rfl⟩)
      · exact .none (List.eq_nil_of_length_eq_zero h)
      · exact .several h
  rw [hdefect, ← hlength, checkStart]
  rcases stateNames a.starts with - | ⟨name, - | ⟨name', names⟩⟩
  · simp [eq_comm]
  · simp
  · simp [eq_comm]

theorem checkEndpoints_eq_error_iff : a.checkEndpoints = .error d ↔ a.EndDefect d := by
  rw [checkEndpoints, unknownEndpoints, EndDefect]
  induction a.transitions.flatMap fun t => [t.source, t.target] with
  | nil => simp [Earliest.nil_iff]
  | cons name names ih =>
      by_cases hname : name ∈ a.names
      · have hstate : a.hasState name = true := (hasState_iff a name).2 hname
        rw [Earliest.cons_of_sound fun e he => he.1 hname, ← ih]
        simp [hstate]
      · have hstate : a.hasState name = false :=
          Bool.eq_false_of_not_eq_true fun h => hname ((hasState_iff a name).1 h)
        rw [Earliest.cons_of_wrong fun e => and_iff_right hname]
        simp [hstate, eq_comm]

/-! ## Labels -/

section

variable (state : String) (before : List String)

theorem tokenDefect_empty_iff : TokenDefect state before "" d ↔ d = .emptyLabel state := by
  constructor
  · rintro (h | h | h | ⟨c, hc, htoken, h⟩)
    · rfl
    · exact absurd h (by decide)
    · exact absurd h (by decide)
    · exact absurd (congrArg String.length htoken) (by simp)
  · rintro rfl
    exact .empty rfl

theorem tokenDefect_epsilon_iff : TokenDefect state before epsilonToken d ↔ d = .epsilon state := by
  constructor
  · rintro (h | h | h | ⟨c, hc, htoken, h⟩)
    · exact absurd h (by decide)
    · rfl
    · exact absurd h (by decide)
    · exact absurd htoken.symm (singleton_ne_epsilonToken hc)
  · rintro rfl
    exact .epsilon rfl

theorem tokenDefect_of_two_le {token : String} (htoken : 2 ≤ token.length) :
    TokenDefect state before token d ↔ d = .multiCharSymbol state token := by
  constructor
  · rintro (rfl | rfl | h | ⟨c, hc, rfl, h⟩)
    · exact absurd htoken (by decide)
    · exact absurd htoken (by decide)
    · rfl
    · exact absurd htoken (by simp)
  · rintro rfl
    exact .multiChar htoken

theorem tokenDefect_singleton_iff {c : Char} (hc : c ≠ epsilonChar) :
    TokenDefect state before (String.singleton c) d ↔
      String.singleton c ∈ before ∧ d = .duplicateSymbol state c := by
  constructor
  · rintro (h | h | h | ⟨e, he, htoken, h⟩)
    · exact absurd (congrArg String.length h) (by simp)
    · exact absurd h (singleton_ne_epsilonToken hc)
    · exact absurd h (by simp)
    · exact ⟨h, by rw [singleton_injective htoken]⟩
  · rintro ⟨h, rfl⟩
    exact .duplicate c hc rfl h

end

/-- What a token may be. -/
theorem token_cases (token : String) : token = "" ∨ token = epsilonToken ∨
    (2 ≤ token.length ∧ symbolOf? token = none) ∨
      ∃ c, c ≠ epsilonChar ∧ token = String.singleton c := by
  cases h : symbolOf? token with
  | some c =>
      obtain ⟨hc, rfl⟩ := (symbolOf?_eq_some_iff token c).1 h
      exact .inr (.inr (.inr ⟨c, hc, rfl⟩))
  | none =>
      rw [symbolOf?] at h
      rw [← String.length_toList]
      rcases htoken : token.toList with - | ⟨c, - | ⟨e, cs⟩⟩
      · exact .inl (String.toList_injective htoken)
      · refine .inr (.inl (String.toList_injective (htoken.trans ?_)))
        rw [htoken] at h
        by_cases hc : c = epsilonChar
        · rw [hc]
          rfl
        · simp [hc] at h
      · exact .inr (.inr (.inl ⟨by simp, rfl⟩))

/-- The tokens before are told by the symbols among them. -/
theorem tokenSymbols_eq_error_iff (state : String) (seen : Alphabet) (before tokens : List String)
    (hseen : ∀ c, c ∈ seen ↔ String.singleton c ∈ before) :
    tokenSymbols state seen tokens = .error d ↔
      Earliest (fun ys => TokenDefect state (before ++ ys)) tokens d := by
  induction tokens generalizing seen before with
  | nil => simp [tokenSymbols, Earliest.nil_iff]
  | cons token tokens ih =>
      rw [tokenSymbols]
      rcases token_cases token with rfl | rfl | ⟨htoken, hnone⟩ | ⟨c, hc, rfl⟩
      · rw [Earliest.cons_of_wrong fun e => tokenDefect_empty_iff state (before ++ [])]
        simp [eq_comm]
      · rw [Earliest.cons_of_wrong fun e => tokenDefect_epsilon_iff state (before ++ [])]
        simp [eq_comm, show ¬ epsilonToken = "" by decide]
      · have hempty : ¬ token = "" := by
          rintro rfl
          exact absurd htoken (by decide)
        have hepsilon : ¬ token = epsilonToken := by
          rintro rfl
          exact absurd htoken (by decide)
        rw [Earliest.cons_of_wrong fun e => tokenDefect_of_two_le state (before ++ []) htoken,
          if_neg hempty, if_neg hepsilon, hnone]
        simp [eq_comm]
      · have hempty : ¬ String.singleton c = "" := fun h =>
          absurd (congrArg String.length h) (by simp)
        rw [if_neg hempty, if_neg (singleton_ne_epsilonToken hc),
          (symbolOf?_eq_some_iff _ c).2 ⟨hc, rfl⟩]
        by_cases hmem : c ∈ seen
        · have hbefore : String.singleton c ∈ before ++ [] := by simpa using (hseen c).1 hmem
          rw [Earliest.cons_of_wrong fun e =>
            (tokenDefect_singleton_iff state (before ++ []) hc).trans (and_iff_right hbefore)]
          simp [hmem, eq_comm]
        · have hbefore : ¬ String.singleton c ∈ before ++ [] := by simpa [hseen] using hmem
          rw [Earliest.cons_of_sound fun e he =>
            hbefore ((tokenDefect_singleton_iff state (before ++ []) hc).1 he).1]
          have hnext : ∀ e, e ∈ seen.insert c ↔
              String.singleton e ∈ before ++ [String.singleton c] := by
            intro e
            simp [hseen, String.singleton_inj, or_comm]
          simpa [hmem] using ih (seen.insert c) (before ++ [String.singleton c]) hnext

theorem labelSymbols_outgoing_eq_error_iff (a : Automaton) (state : String) (d : Defect) :
    labelSymbols state .empty ((a.outgoing state).map Transition.label) = .error d ↔
      a.LabelDefect state d := by
  rw [labelSymbols_eq_tokenSymbols, List.flatMap_map,
    tokenSymbols_eq_error_iff state .empty [] _ (by simp)]
  rfl

/-! ## States -/

theorem symbolTable_eq_error_iff (names : List String) :
    a.symbolTable names = .error d ↔
      Earliest (fun _ state => a.LabelDefect state) names d := by
  induction names with
  | nil => simp [symbolTable, Earliest.nil_iff]
  | cons name names ih =>
      rw [symbolTable]
      cases hname : labelSymbols name .empty ((a.outgoing name).map Transition.label) with
      | error d₀ =>
          have hwrong : ∀ e, a.LabelDefect name e ↔ e = d₀ := by
            intro e
            rw [← labelSymbols_outgoing_eq_error_iff, hname, Except.error.injEq, eq_comm]
          rw [Earliest.cons_of_wrong hwrong]
          simp [eq_comm]
      | ok S =>
          have hsound : ∀ e, ¬ a.LabelDefect name e := by
            intro e he
            rw [← labelSymbols_outgoing_eq_error_iff, hname] at he
            cases he
          rw [Earliest.cons_of_sound hsound, ← ih]
          cases a.symbolTable names with
          | error e => simp
          | ok rest => simp

/-- The symbols of a state, if nothing is wrong with its labels. -/
theorem labelSymbols_outgoing_eq_symbolsAt {state : String} {S : Alphabet}
    (h : labelSymbols state .empty ((a.outgoing state).map Transition.label) = .ok S) :
    S = a.symbolsAt state := by
  obtain ⟨-, cs, hcs, hall, -, rfl⟩ := (labelSymbols_eq_ok_iff state .empty _ S).1 h
  rw [List.flatMap_map] at hcs
  have hsymbols : (a.outgoing state).flatMap (fun t => t.label.symbols) = cs := by
    have hself : ∀ c ∈ cs, (symbolOf? ∘ String.singleton) c = some c := fun c hc =>
      (symbolOf?_eq_some_iff _ c).2 ⟨(hall c hc).1, rfl⟩
    simp only [Label.symbols]
    rw [← List.filterMap_flatMap, hcs, List.filterMap_map, List.filterMap_congr hself,
      List.filterMap_some]
  rw [symbolsAt, hsymbols]
  rfl

theorem symbolTable_eq_symbolsAt {names : List String} {table : List (String × Alphabet)}
    (h : a.symbolTable names = .ok table) :
    table = names.map fun name => (name, a.symbolsAt name) := by
  obtain ⟨rfl, hall⟩ := (symbolTable_eq_ok_iff a names table).1 h
  rw [List.map_map]
  refine (List.map_id table).symm.trans (List.map_congr_left ?_)
  intro e he
  exact Prod.ext rfl (labelSymbols_outgoing_eq_symbolsAt (hall e he))

/-! ## Symbols -/

theorem symbolDefect_of_missing {S : Alphabet} {state : String}
    (h : S.without (a.symbolsAt state) ≠ []) :
    a.SymbolDefect S state d ↔ d = .missingSymbols state (S.without (a.symbolsAt state)) := by
  constructor
  · rintro (⟨cs, hne, hcs⟩ | ⟨cs, hall, hne, hcs⟩)
    · rw [hcs.unique (S.sortedList_without _)]
    · exact absurd (List.isEmpty_iff.1 ((without_isEmpty_iff _ _).2 hall)) h
  · rintro rfl
    exact .missing _ h (S.sortedList_without _)

theorem symbolDefect_of_extra {S : Alphabet} {state : String}
    (hall : ∀ c ∈ S, c ∈ a.symbolsAt state) (h : (a.symbolsAt state).without S ≠ []) :
    a.SymbolDefect S state d ↔ d = .extraSymbols state ((a.symbolsAt state).without S) := by
  constructor
  · rintro (⟨cs, hne, hcs⟩ | ⟨cs, -, hne, hcs⟩)
    · exact absurd (hcs.eq_nil fun c hc => hc.2 (hall c hc.1)) hne
    · rw [hcs.unique (Alphabet.sortedList_without _ S)]
  · rintro rfl
    exact .extra _ hall h (Alphabet.sortedList_without _ S)

theorem not_symbolDefect_symbolsAt (a : Automaton) (state : String) (d : Defect) :
    ¬ a.SymbolDefect (a.symbolsAt state) state d := by
  rintro (⟨cs, hne, hcs⟩ | ⟨cs, -, hne, hcs⟩)
  · exact hne (hcs.eq_nil fun c hc => hc.2 hc.1)
  · exact hne (hcs.eq_nil fun c hc => hc.2 hc.1)

theorem checkSymbols_eq_error_iff (S : Alphabet) (names : List String) :
    checkSymbols S (names.map fun name => (name, a.symbolsAt name)) = .error d ↔
      Earliest (fun _ state => a.SymbolDefect S state) names d := by
  induction names with
  | nil => simp [checkSymbols, Earliest.nil_iff]
  | cons name names ih =>
      rw [List.map_cons, checkSymbols]
      by_cases hmissing : S.without (a.symbolsAt name) = []
      · have hall := (without_isEmpty_iff _ _).1 (List.isEmpty_iff.2 hmissing)
        by_cases hextra : (a.symbolsAt name).without S = []
        · have hall' := (without_isEmpty_iff _ _).1 (List.isEmpty_iff.2 hextra)
          have hS : S = a.symbolsAt name :=
            Alphabet.ext_mem fun c => ⟨hall c, hall' c⟩
          have hsound : ∀ e, ¬ a.SymbolDefect S name e := by
            rw [hS]
            exact a.not_symbolDefect_symbolsAt name
          rw [Earliest.cons_of_sound hsound, ← ih]
          simp [hmissing, hextra]
        · rw [Earliest.cons_of_wrong fun e => symbolDefect_of_extra hall hextra]
          simpa [hmissing, hextra] using eq_comm
      · rw [Earliest.cons_of_wrong fun e => symbolDefect_of_missing hmissing]
        simpa [hmissing] using eq_comm

/-! ## The alphabet that is taken for granted -/

theorem largest_eq_iff (T : Alphabet) (sets : List Alphabet) (S : Alphabet) :
    largest T sets = S ↔ FirstLargest (T :: sets) S := by
  induction sets generalizing T with
  | nil =>
      rw [largest, FirstLargest.cons_iff]
      simp [FirstLargest.nil_iff, eq_comm]
  | cons U sets ih =>
      rw [largest, ih]
      split
      · next h => exact (FirstLargest.cons_cons_iff_of_lt h sets S).symm
      · next h => exact (FirstLargest.cons_cons_iff_of_le (Nat.not_lt.1 h) sets S).symm

theorem supposes_iff (hne : a.names ≠ []) (given : Option Alphabet) (S : Alphabet) :
    a.Supposes given S ↔ given.getD (largest .empty (a.names.map a.symbolsAt)) = S := by
  cases given with
  | some T => exact eq_comm
  | none =>
      obtain ⟨name, names, hnames⟩ := List.exists_cons_of_ne_nil hne
      rw [Supposes, hnames, List.map_cons, Option.getD_none, largest_empty_cons, largest_eq_iff]

theorem checkSymbols_table_eq_error_iff (given : Option Alphabet) :
    checkSymbols (given.getD (largest .empty (a.names.map a.symbolsAt)))
        (a.names.map fun name => (name, a.symbolsAt name)) = .error d ↔
      ∃ S, a.Supposes given S ∧ Earliest (fun _ state => a.SymbolDefect S state) a.names d := by
  by_cases hne : a.names = []
  · simp [hne, checkSymbols, Earliest.nil_iff]
  · simp only [supposes_iff hne, checkSymbols_eq_error_iff, exists_eq_left']

/-- A state that has all symbols of an alphabet and others has more symbols than it. -/
theorem size_lt_of_extraSymbols {S : Alphabet} {state name : String} {cs : List Char}
    (h : a.SymbolDefect S state (.extraSymbols name cs)) : S.size < (a.symbolsAt state).size := by
  cases h with
  | extra cs hall hne hcs =>
      obtain ⟨c, hc⟩ := List.exists_mem_of_ne_nil cs hne
      obtain ⟨hmem, hnot⟩ := (hcs.mem_iff c).1 hc
      have hnodup : (c :: S.symbols).Nodup := List.nodup_cons.2 ⟨hnot, S.nodup_symbols⟩
      have hsubset : c :: S.symbols ⊆ (a.symbolsAt state).symbols :=
        List.cons_subset.2 ⟨hmem, hall⟩
      exact (List.subperm_of_subset hnodup hsubset).length_le

/-! ## The order of the kinds -/

/-- One check after another finds the first of the kinds of defects that applies, if each finds
the defects of its kind. -/
theorem bind_eq_error_iff {α β : Type} {check : Except Defect α} {next : α → Except Defect β}
    {kind : Defect → Prop} {kinds : List (Defect → Prop)}
    (hcheck : ∀ e, check = .error e ↔ kind e)
    (hnext : ∀ x, check = .ok x →
      (next x = .error d ↔ Earliest (fun _ applies e => applies e) kinds d)) :
    check >>= next = .error d ↔ Earliest (fun _ applies e => applies e) (kind :: kinds) d := by
  cases check with
  | error d₀ =>
      have hwrong : ∀ e, kind e ↔ e = d₀ := by
        intro e
        rw [← hcheck, Except.error.injEq, eq_comm]
      rw [Earliest.cons_of_wrong hwrong]
      change (Except.error d₀ : Except Defect β) = .error d ↔ d = d₀
      rw [Except.error.injEq, eq_comm]
  | ok x =>
      rw [Earliest.cons_of_sound fun e he => by cases (hcheck e).2 he]
      exact hnext x rfl

/-- The checks, one after another. -/
theorem validate_eq_bind (a : Automaton) (given : Option Alphabet) :
    a.validate given = a.checkStart >>= fun _ => a.checkEndpoints >>= fun _ =>
      a.symbolTable a.names >>= fun table =>
        let S := given.getD (largest .empty (table.map Prod.snd))
        checkSymbols S table >>= fun _ =>
          if a.transitions.isEmpty then .error .noTransitions else .ok S := by
  rw [validate]
  cases a.checkStart with
  | error d => rfl
  | ok u =>
      cases a.checkEndpoints with
      | error d => rfl
      | ok u =>
          cases a.symbolTable a.names with
          | error d => rfl
          | ok table =>
              simp only [bind, Except.bind]
              cases checkSymbols (given.getD (largest .empty (table.map Prod.snd))) table with
              | error d => rfl
              | ok u => rfl

theorem validate_eq_error_iff_kinds (a : Automaton) (given : Option Alphabet) (d : Defect) :
    a.validate given = .error d ↔
      Earliest (fun _ applies e => applies e) (a.defectKinds given) d := by
  rw [validate_eq_bind, defectKinds]
  refine bind_eq_error_iff (fun _ => checkStart_eq_error_iff) fun _ _ =>
    bind_eq_error_iff (fun _ => checkEndpoints_eq_error_iff) fun _ _ =>
    bind_eq_error_iff (fun _ => symbolTable_eq_error_iff a.names) fun table htable => ?_
  have hsets : table.map Prod.snd = a.names.map a.symbolsAt := by
    rw [symbolTable_eq_symbolsAt htable, List.map_map]
    rfl
  rw [hsets, symbolTable_eq_symbolsAt htable]
  refine bind_eq_error_iff (fun _ => checkSymbols_table_eq_error_iff given) fun _ _ => ?_
  rw [Earliest.cons_iff]
  by_cases hnil : a.transitions = []
  · simpa [hnil, Earliest.nil_iff] using eq_comm
  · simp [hnil, Earliest.nil_iff]

/-- Validation fails with the first defect, in the order of the kinds, and within a kind in the
order of the states, the transitions and their tokens. If no alphabet is given, no state is told
to have symbols that it should not have. -/
theorem validate_eq_error_iff (a : Automaton) (given : Option Alphabet) :
    (∀ d, a.validate given = .error d ↔
      Earliest (fun _ applies e => applies e) (a.defectKinds given) d) ∧
    ∀ state cs, a.validate none ≠ .error (.extraSymbols state cs) := by
  refine ⟨a.validate_eq_error_iff_kinds given, ?_⟩
  intro state cs h
  obtain ⟨before, kind, after, hsplit, hkind, -⟩ := (a.validate_eq_error_iff_kinds none _).1 h
  have hmem : kind ∈ a.defectKinds none := hsplit ▸ List.mem_append_right _ List.mem_cons_self
  simp only [defectKinds, List.mem_cons, List.not_mem_nil, or_false] at hmem
  rcases hmem with rfl | rfl | rfl | rfl | rfl
  · cases hkind
  · obtain ⟨_, _, _, -, ⟨-, hd⟩, -⟩ := hkind
    cases hd
  · obtain ⟨_, _, _, -, ⟨_, _, _, -, hd, -⟩, -⟩ := hkind
    cases hd
  · obtain ⟨S, hS, _, name, _, hnames, hd, -⟩ := hkind
    have hname : name ∈ a.names := hnames ▸ List.mem_append_right _ List.mem_cons_self
    exact Nat.not_lt.2 (FirstLargest.size_le hS (List.mem_map_of_mem hname))
      (size_lt_of_extraSymbols hd)
  · cases hkind.2

end Automaton

end FiniteState
