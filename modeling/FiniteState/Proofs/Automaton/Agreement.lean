import FiniteState.Proofs.Automaton.Compare
import FiniteState.Proofs.Automaton.Subset

/-!
# Three ways to run an automaton

A complete deterministic automaton can be run by its table, by following all choices at once,
and by the table of the sets of states that are met on the way. All three say the same of a word.
The first two were shown to accept the language of the automaton, which is about its paths. The
third has the alphabet of the first, since a symbol of the alphabet is carried by a transition of
every state, and over one alphabet the accepted words determine all verdicts.
-/

namespace FiniteState.Automaton

namespace IsComplete

variable {a : Automaton} {S : Alphabet} (h : a.IsComplete S)
include h

/-- The accepted words can also be told by following all choices at once. -/
theorem verdict_eq_accept_iff_accepts (w : List Char) :
    a.verdict w = .accept ↔ a.accepts w = true :=
  (h.verdict_eq_accept_iff w).trans (accepts_iff_mem_language a w).symm

theorem verdict_eq_reject_iff (w : List Char) :
    a.verdict w = .reject ↔ (∀ c ∈ w, c ∈ S) ∧ a.accepts w = false := by
  have haccept := h.verdict_eq_accept_iff_accepts w
  have hover : (∀ c ∈ w, c ∈ S) ↔ ¬ a.verdict w = .crash := by
    rw [h.verdict_eq_crash_iff]
    simp
  rw [hover, ← Bool.not_eq_true, ← haccept]
  cases a.verdict w <;> simp

/-! ## The sets of states -/

/-- The transitions carry the symbols of the alphabet. -/
theorem carries_iff (c : Char) : a.Carries c ↔ c ∈ S := by
  constructor
  · rintro ⟨t, ht, hsource, -, -, htoken⟩
    exact (h.mem_leavingTokens_iff hsource c).1 (mem_leavingTokens ht htoken)
  · intro hc
    obtain ⟨s, hs, -⟩ := h.states_ne_nil
    obtain ⟨t, ht, -, htoken, -⟩ := h.exists_transition (List.mem_map_of_mem hs) hc
    exact ⟨t, ht, (h.ends t ht).1, (h.ends t ht).2, fun heq => h.epsilon_not_mem (heq ▸ hc),
      htoken⟩

theorem alphabet_subsetTable : a.subsetTable.alphabet = S :=
  Alphabet.ext_mem fun c => (mem_alphabet_subsetTable a c).trans (h.carries_iff c)

theorem symbols_subsetTable_ne_nil : a.subsetTable.alphabet.symbols ≠ [] := by
  rw [h.alphabet_subsetTable]
  exact h.symbols_ne_nil

/-- The subset construction keeps the alphabet of an automaton that is complete already. -/
theorem determinise : a.determinise.IsComplete S := by
  have hcomplete := (valid_subsetTable h.symbols_subsetTable_ne_nil).isComplete_toAutomaton
  rwa [h.alphabet_subsetTable] at hcomplete

/-- It also keeps what is said of every word. -/
theorem verdict_determinise (w : List Char) : a.determinise.verdict w = a.verdict w := by
  have ht := valid_subsetTable h.symbols_subsetTable_ne_nil
  refine h.determinise.verdict_eq_of_accept_iff h ?_
  calc a.determinise.verdict w = .accept
      ↔ a.subsetTable.verdict w = .accept := by rw [Automaton.determinise, ht.verdict_toAutomaton]
    _ ↔ a.accepts w = true := verdict_subsetTable_eq_accept_iff h.symbols_subsetTable_ne_nil w
    _ ↔ a.verdict w = .accept := (h.verdict_eq_accept_iff_accepts w).symm

end IsComplete

theorem verdict_eq_crash_of_validate {a : Automaton} {d : Defect}
    (hd : a.validate none = .error d) (w : List Char) : a.verdict w = .crash := by
  rw [verdict, table?_eq_error hd]

/-- On a complete deterministic automaton over `S` the table crashes on the words that are not
over `S`, accepts the words that are accepted by following all choices at once, and rejects the
others; the subset construction says the same. Any other automaton crashes on every word. -/
theorem verdict_agrees (a : Automaton) :
    match a.validate none with
    | .error _ => ∀ w, a.verdict w = .crash
    | .ok S => ∀ w,
        (a.verdict w = .crash ↔ ∃ c ∈ w, ¬ c ∈ S) ∧
        (a.verdict w = .accept ↔ a.accepts w = true) ∧
        (a.verdict w = .reject ↔ (∀ c ∈ w, c ∈ S) ∧ a.accepts w = false) ∧
        a.determinise.verdict w = a.verdict w := by
  cases hS : a.validate none with
  | error d => exact verdict_eq_crash_of_validate hS
  | ok S =>
      have h := (validate_none_eq_ok_iff a S).1 hS
      intro w
      exact ⟨h.verdict_eq_crash_iff w, h.verdict_eq_accept_iff_accepts w,
        h.verdict_eq_reject_iff w, h.verdict_determinise w⟩

end FiniteState.Automaton
