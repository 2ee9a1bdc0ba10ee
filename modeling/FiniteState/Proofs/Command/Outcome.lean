import Mathlib.Order.Bounds.Defs
import FiniteState.Proofs.Command.Printed

/-!
# How compiling ends

Two commands turn what they are given into a deterministic automaton: one an expression, the other
a graph. `execute_compiling` says when each of them fails, and with what. What is given may be
unreadable, and an expression may use a literal that the alphabet does not have. After that only
minimisation can fail, since it is the only step that looks for defects. What the subset
construction gives has no defect but one: it is without transitions if nothing is read.
-/

namespace FiniteState

section

variable {ε ε' α β : Type} {x : Except ε α}

theorem map_eq_error_iff {f : α → β} {e : ε} : x.map f = .error e ↔ x = .error e := by
  cases x <;> simp [Except.map]

theorem mapError_eq_error_iff {f : ε → ε'} {e' : ε'} :
    x.mapError f = .error e' ↔ ∃ e, x = .error e ∧ e' = f e := by
  cases x <;> simp [Except.mapError, eq_comm]

/-- What does not fail gives a result. -/
theorem exists_eq_ok_iff : (∃ a, x = .ok a) ↔ ∀ e, x ≠ .error e := by
  cases x <;> simp

end

namespace Automaton

/-- Minimising a subset construction fails only if there is nothing to read. -/
theorem minimise_determinise_eq_error_iff (a : Automaton) (d : Defect) :
    a.determinise.minimise = .error d ↔ (∀ c, ¬ a.Carries c) ∧ d = .noTransitions := by
  have hcarries : (∀ c, ¬ a.Carries c) ↔ a.subsetTable.alphabet.symbols = [] := by
    rw [List.eq_nil_iff_forall_not_mem]
    exact forall_congr' fun c => not_congr (mem_alphabet_subsetTable a c).symm
  rw [hcarries]
  by_cases h : a.subsetTable.alphabet.symbols = []
  · obtain ⟨s, hs, heq⟩ := determinise_eq h
    have htable := table?_eq_error (validate_single s hs)
    rw [minimise, heq, htable]
    simp [h, eq_comm]
  · rw [minimise, determinise, (valid_subsetTable h).table?_toAutomaton]
    simp [h]

end Automaton

/-- The automaton of an expression reads the literals of the expression. -/
theorem Regex.carries_toAutomaton_iff (r : Regex) (stem : String) (c : Char) :
    (r.toAutomaton stem).Carries c ↔ c ∈ r.literals ∧ c ≠ epsilonChar := by
  rw [← Automaton.mem_alphabet_subsetTable, r.alphabet_subsetTable, r.mem_alphabet, and_comm]

namespace Command

variable {options : Options}

/-! ## Reading an expression -/

/-- An alphabet is given, and a literal of the expression is not in it. -/
def IsForeign (alphabet : Option Alphabet) (r : Regex) (c : Char) : Prop :=
  ∃ S, alphabet = some S ∧ c ∈ r.literals ∧ ¬ c ∈ S

theorem foreignSymbol?_eq_some_iff (r : Regex) (alphabet : Option Alphabet) (c : Char) :
    foreignSymbol? r alphabet = some c ↔ IsLeast {d | IsForeign alphabet r d} c := by
  cases alphabet with
  | none => simp [foreignSymbol?, IsForeign, IsLeast]
  | some S =>
      rw [foreignSymbol?, Alphabet.head?_without_eq_some_iff]
      simp [IsForeign, Regex.mem_symbols]

theorem foreignSymbol?_eq_none_iff (r : Regex) (alphabet : Option Alphabet) :
    foreignSymbol? r alphabet = none ↔ ∀ c, ¬ IsForeign alphabet r c := by
  cases alphabet with
  | none => simp [foreignSymbol?, IsForeign]
  | some S =>
      rw [foreignSymbol?, List.head?_eq_none_iff, List.eq_nil_iff_forall_not_mem]
      simp [IsForeign, Regex.mem_symbols]

theorem readRegex_eq_ok_iff (source : String) (r : Regex) :
    readRegex source options = .ok r ↔
      Regex.parse source = .ok r ∧ ∀ c, ¬ IsForeign options.alphabet r c := by
  rw [← foreignSymbol?_eq_none_iff, readRegex]
  cases Regex.parse source with
  | error e => simp
  | ok q =>
      cases hforeign : foreignSymbol? q options.alphabet with
      | none =>
          simp only [hforeign, Except.ok.injEq]
          exact ⟨fun h => ⟨h, h ▸ hforeign⟩, fun h => h.1⟩
      | some c =>
          simp only [hforeign, reduceCtorEq, Except.ok.injEq, false_iff, not_and]
          rintro rfl
          simp [hforeign]

theorem readRegex_eq_error_iff (source : String) (f : Failure) :
    readRegex source options = .error f ↔
      (∃ e, Regex.parse source = .error e ∧ f = .regex source e) ∨
      ∃ r, Regex.parse source = .ok r ∧
        ∃ c, IsLeast {d | IsForeign options.alphabet r d} c ∧ f = .unknownSymbol c := by
  simp only [← foreignSymbol?_eq_some_iff, readRegex]
  cases Regex.parse source with
  | error e => simp [eq_comm]
  | ok r => cases hforeign : foreignSymbol? r options.alphabet <;> simp [hforeign, eq_comm]

/-! ## Making it deterministic -/

/-- What remains to be done fails only if there is nothing to read and the automaton is to be
minimised. -/
theorem finish_eq_error_iff (n : Automaton) (f : Failure) : finish n options = .error f ↔
    options.minimise = true ∧ (∀ c, ¬ n.Carries c) ∧ f = .invalid .noTransitions := by
  rw [finish]
  cases options.minimise with
  | false => simp
  | true =>
      simp only [if_true, mapError_eq_error_iff, Automaton.minimise_determinise_eq_error_iff]
      simp

theorem exists_finish_iff (n : Automaton) : (∃ a, finish n options = .ok a) ↔
    (options.minimise = true → ∃ c, n.Carries c) := by
  simp only [exists_eq_ok_iff, ne_eq, finish_eq_error_iff]
  constructor
  · intro h hminimise
    by_contra hnone
    exact h _ ⟨hminimise, not_exists.1 hnone, rfl⟩
  · rintro h f ⟨hminimise, hnone, -⟩
    obtain ⟨c, hc⟩ := h hminimise
    exact hnone c hc

section

variable (source : String) (graph : Automaton) (f : Failure)

theorem execute_regex_eq_error_iff :
    execute options (.regex source) = .error f ↔ readRegex source options = .error f ∨
      ∃ r, readRegex source options = .ok r ∧ finish (r.toAutomaton stem) options = .error f := by
  rw [execute, map_eq_error_iff, result]
  cases readRegex source options with
  | error e => simp
  | ok r => simp [map_eq_error_iff]

theorem exists_execute_regex_iff : (∃ text, execute options (.regex source) = .ok text) ↔
    ∃ r, readRegex source options = .ok r ∧ ∃ a, finish (r.toAutomaton stem) options = .ok a := by
  simp only [exists_eq_ok_iff, ne_eq, execute_regex_eq_error_iff]
  cases readRegex source options with
  | error e => simp
  | ok r => simp

theorem execute_determinise_eq_error_iff :
    execute options (.determinise graph) = .error f ↔
      (∃ e, graph.splice options.alphabet = .error e ∧ f = .label e) ∨
      ∃ n, graph.splice options.alphabet = .ok n ∧ finish n options = .error f := by
  rw [execute, map_eq_error_iff, result]
  cases graph.splice options.alphabet with
  | error e => simp [eq_comm]
  | ok n => simp [map_eq_error_iff]

theorem exists_execute_determinise_iff :
    (∃ text, execute options (.determinise graph) = .ok text) ↔
      ∃ n, graph.splice options.alphabet = .ok n ∧ ∃ a, finish n options = .ok a := by
  simp only [exists_eq_ok_iff, ne_eq, execute_determinise_eq_error_iff]
  cases graph.splice options.alphabet with
  | error e => simp
  | ok n => simp

end

/-! ## Both commands -/

/-- Compiling an expression fails if its text cannot be read, or else with the least literal that
is not in the alphabet, or else if it is to be minimised and has no literal to read. Compiling a
graph fails if a label cannot be read, or else if it is to be minimised and no transition between
existing states carries a symbol. There is no other failure. -/
theorem execute_compiling (options : Options) :
    (∀ source,
      (∀ f, execute options (.regex source) = .error f ↔
        (∃ e, Regex.parse source = .error e ∧ f = .regex source e) ∨
        ∃ r, Regex.parse source = .ok r ∧
          ((∃ c, IsLeast {d | IsForeign options.alphabet r d} c ∧ f = .unknownSymbol c) ∨
            ((∀ c, ¬ IsForeign options.alphabet r c) ∧ options.minimise = true ∧
              (∀ c ∈ r.literals, c = epsilonChar) ∧ f = .invalid .noTransitions))) ∧
      ((∃ text, execute options (.regex source) = .ok text) ↔
        ∃ r, Regex.parse source = .ok r ∧ (∀ c, ¬ IsForeign options.alphabet r c) ∧
          (options.minimise = true → ∃ c ∈ r.literals, c ≠ epsilonChar))) ∧
    ∀ graph : Automaton,
      (∀ f, execute options (.determinise graph) = .error f ↔
        (∃ e, graph.splice options.alphabet = .error e ∧ f = .label e) ∨
        ∃ n, graph.splice options.alphabet = .ok n ∧ options.minimise = true ∧
          (∀ c, ¬ n.Carries c) ∧ f = .invalid .noTransitions) ∧
      ((∃ text, execute options (.determinise graph) = .ok text) ↔
        ∃ n, graph.splice options.alphabet = .ok n ∧
          (options.minimise = true → ∃ c, n.Carries c)) := by
  refine ⟨fun source => ⟨fun f => ?_, ?_⟩, fun graph => ⟨fun f => ?_, ?_⟩⟩
  · have hnone : ∀ r : Regex, (∀ c, ¬ (r.toAutomaton stem).Carries c) ↔
        ∀ c ∈ r.literals, c = epsilonChar := by
      intro r
      simp only [Regex.carries_toAutomaton_iff, ne_eq, not_and, not_not]
    simp only [execute_regex_eq_error_iff, readRegex_eq_error_iff, readRegex_eq_ok_iff,
      finish_eq_error_iff, hnone, or_assoc, and_assoc, ← exists_or, ← and_or_left]
  · simp only [exists_execute_regex_iff, readRegex_eq_ok_iff, exists_finish_iff,
      Regex.carries_toAutomaton_iff, and_assoc]
  · simp only [execute_determinise_eq_error_iff, finish_eq_error_iff]
  · simp only [exists_execute_determinise_iff, exists_finish_iff]

/-- Foreign literals are looked for before it is asked whether there is anything to read. -/
example : execute ⟨some (Alphabet.ofList ['a']), true, true⟩ (.regex "ε") =
    .error (.unknownSymbol 'ε') := by
  decide +kernel

end Command

end FiniteState
