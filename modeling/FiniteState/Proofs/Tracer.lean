import FiniteState.Proofs.Automaton.Minimise
import FiniteState.Tracer

/-!
# A tracer does not leave the run

Whatever moves a tracer is asked for, it stays on the run of the automaton on its word. The
invariant is `OnRun`: the word is what has been read and what has not, and the table leads from
its start over the former to the current state. A confirmed move keeps it by one step of the
table, a refused one by changing nothing, and what `start_spec` says of any sequence of moves
follows from the invariant alone.
-/

namespace FiniteState.Tracer

open Automaton (Path)

/-- The tracer after some moves in turn, of which those that are refused change nothing. -/
def after (t : Tracer) (names : List String) : Tracer := names.foldl tryMove t

/-- How many of some moves in turn are confirmed. -/
def confirmed (t : Tracer) : List String → Nat
  | [] => 0
  | name :: names =>
      match t.move name with
      | .ok moved => confirmed moved names + 1
      | .error _ => confirmed t names

@[simp] theorem after_nil (t : Tracer) : t.after [] = t := rfl

theorem after_cons (t : Tracer) (name : String) (names : List String) :
    t.after (name :: names) = (t.tryMove name).after names := rfl

section

variable {t moved : Tracer} {name : String}

theorem tryMove_of_ok (h : t.move name = .ok moved) : t.tryMove name = moved := by
  rw [tryMove, h]

/-- A refused move changes nothing. -/
theorem tryMove_of_error {r : Refusal} (h : t.move name = .error r) : t.tryMove name = t := by
  rw [tryMove, h]

theorem confirmed_cons_of_ok (h : t.move name = .ok moved) (names : List String) :
    t.confirmed (name :: names) = moved.confirmed names + 1 := by
  rw [confirmed, h]

theorem confirmed_cons_of_error {r : Refusal} (h : t.move name = .error r)
    (names : List String) : t.confirmed (name :: names) = t.confirmed names := by
  rw [confirmed, h]

theorem confirmed_le_length (t : Tracer) (names : List String) :
    t.confirmed names ≤ names.length := by
  induction names generalizing t with
  | nil => exact Nat.le_refl 0
  | cons name names ih =>
      rw [List.length_cons]
      cases h : t.move name with
      | ok moved =>
          rw [confirmed_cons_of_ok h]
          exact Nat.succ_le_succ (ih moved)
      | error r =>
          rw [confirmed_cons_of_error h]
          exact Nat.le_succ_of_le (ih t)

/-- All moves are confirmed if the first is and all others are from there. -/
theorem confirmed_cons_eq_length_iff (t : Tracer) (name : String) (names : List String) :
    t.confirmed (name :: names) = (name :: names).length ↔
      ∃ moved, t.move name = .ok moved ∧ moved.confirmed names = names.length := by
  cases h : t.move name with
  | ok moved =>
      rw [confirmed_cons_of_ok h]
      simp
  | error r =>
      rw [confirmed_cons_of_error h]
      have hle := t.confirmed_le_length names
      simp only [List.length_cons, reduceCtorEq, false_and, exists_false, iff_false]
      omega

/-- What is known of a confirmed move. -/
theorem exists_of_move_eq_ok (h : t.move name = .ok moved) :
    ∃ c rest next, t.remaining = c :: rest ∧ t.table.step? t.current c = some next ∧
      t.table.name next = name ∧ moved =
        { t with consumed := t.consumed ++ [c], remaining := rest, current := next } := by
  rw [move] at h
  split at h
  case h_1 => cases h
  case h_2 c rest hremaining =>
    split at h
    case h_1 => cases h
    case h_2 next hstep =>
      split at h
      · cases h
      · split at h
        · next hname =>
            cases h
            exact ⟨c, rest, next, hremaining, hstep, hname, rfl⟩
        · cases h

/-- A move to the state that the next symbol leads to is confirmed. -/
theorem move_of_step? {c : Char} {rest : List Char} {next : Nat}
    (hremaining : t.remaining = c :: rest) (hstep : t.table.step? t.current c = some next)
    (hmem : t.table.name next ∈ t.table.names) :
    t.move (t.table.name next) =
      .ok { t with consumed := t.consumed ++ [c], remaining := rest, current := next } := by
  have hcontains := List.contains_iff_mem.2 hmem
  rw [move]
  simp only [hremaining, hstep, hcontains, Bool.not_true, Bool.false_eq_true, if_false, if_true]

end

variable {a : Automaton} {S : Alphabet} {w : List Char} {t : Tracer}

/-- The tracer is somewhere on the run of the automaton on a word. -/
structure OnRun (a : Automaton) (S : Alphabet) (w : List Char) (t : Tracer) : Prop where
  table_eq : t.table = a.tableOver S
  word : t.consumed ++ t.remaining = w
  run : (a.tableOver S).run? (a.tableOver S).start t.consumed = some t.current

namespace OnRun

theorem current_lt (h : a.IsComplete S) (ht : OnRun a S w t) :
    t.current < (a.tableOver S).size :=
  h.valid_tableOver.lt_of_run? h.valid_tableOver.start_lt ht.run

theorem state_eq (ht : OnRun a S w t) : t.state = (a.tableOver S).name t.current := by
  rw [state, ht.table_eq]

theorem length_le (ht : OnRun a S w t) : t.consumed.length ≤ w.length := by
  rw [← ht.word, List.length_append]
  exact Nat.le_add_right _ _

theorem consumed_eq (ht : OnRun a S w t) : t.consumed = w.take t.consumed.length := by
  rw [← ht.word, List.take_left]

theorem nextSymbol?_eq (ht : OnRun a S w t) : t.nextSymbol? = w[t.consumed.length]? := by
  rw [← ht.word, List.getElem?_append_right (Nat.le_refl _), Nat.sub_self,
    ← List.head?_eq_getElem?, nextSymbol?]

/-- A move is confirmed exactly if it is to the state that the next symbol leads to. -/
theorem move_eq_ok_iff (h : a.IsComplete S) (ht : OnRun a S w t) (name : String)
    (moved : Tracer) : t.move name = .ok moved ↔
      ∃ c rest next, t.remaining = c :: rest ∧
        (a.tableOver S).step? t.current c = some next ∧ (a.tableOver S).name next = name ∧
          moved = { t with consumed := t.consumed ++ [c], remaining := rest, current := next } := by
  rw [← ht.table_eq]
  constructor
  · exact exists_of_move_eq_ok
  · rintro ⟨c, rest, next, hremaining, hstep, rfl, rfl⟩
    refine move_of_step? hremaining hstep ?_
    rw [ht.table_eq] at hstep ⊢
    have hnext := h.valid_tableOver.lt_of_step? (ht.current_lt h) hstep
    exact List.mem_of_getElem? (Table.getElem?_names_of_lt hnext)

/-- A confirmed move stays on the run. -/
theorem of_move (ht : OnRun a S w t) {name : String} {moved : Tracer}
    (hmove : t.move name = .ok moved) : OnRun a S w moved := by
  obtain ⟨c, rest, next, hremaining, hstep, -, rfl⟩ := exists_of_move_eq_ok hmove
  rw [ht.table_eq] at hstep
  refine ⟨ht.table_eq, ?_, ?_⟩
  · rw [← ht.word, hremaining]
    exact List.append_assoc _ _ _
  · rw [Table.run?_append, ht.run, Option.bind_some, Table.run?_cons, hstep]
    rfl

/-- Moves stay on the run, and each that is confirmed reads one symbol. -/
theorem after (ht : OnRun a S w t) (names : List String) : OnRun a S w (t.after names) ∧
    (t.after names).consumed.length = t.consumed.length + t.confirmed names := by
  induction names generalizing t with
  | nil => exact ⟨ht, rfl⟩
  | cons name names ih =>
      rw [after_cons]
      cases hmove : t.move name with
      | ok moved =>
          obtain ⟨hrun, hlength⟩ := ih (ht.of_move hmove)
          obtain ⟨c, rest, next, -, -, -, rfl⟩ := exists_of_move_eq_ok hmove
          rw [tryMove_of_ok hmove, confirmed_cons_of_ok hmove]
          refine ⟨hrun, ?_⟩
          rw [hlength, List.length_append, List.length_singleton]
          omega
      | error r =>
          rw [tryMove_of_error hmove, confirmed_cons_of_error hmove]
          exact ih ht

/-- The symbols that have been read lead to the current state alone. -/
theorem path_iff (h : a.IsComplete S) (ht : OnRun a S w t) (q : String) :
    Path a Label.pieces ((a.tableOver S).name (a.tableOver S).start) t.consumed q ↔
      q = t.state := by
  rw [h.path_iff_exists_run? h.valid_tableOver.start_lt, ht.run, ht.state_eq]
  simp [eq_comm]

/-- A move is confirmed if the automaton goes to the named state on the next symbol. -/
theorem exists_move_iff (h : a.IsComplete S) (ht : OnRun a S w t) (name : String) :
    (∃ moved, t.move name = .ok moved) ↔
      ∃ c ∈ S, t.nextSymbol? = some c ∧ Path a Label.pieces t.state [c] name := by
  have hlt := ht.current_lt h
  have hpath : ∀ c, Path a Label.pieces t.state [c] name ↔
      ∃ j, (a.tableOver S).step? t.current c = some j ∧ (a.tableOver S).name j = name := by
    intro c
    rw [ht.state_eq, h.path_iff_exists_run? hlt]
    simp [Table.run?_cons]
  simp only [ht.move_eq_ok_iff h, hpath, nextSymbol?, List.head?_eq_some_iff]
  constructor
  · rintro ⟨-, c, rest, next, hremaining, hstep, hname, -⟩
    have hc := (h.valid_tableOver.step?_isSome_iff t.current hlt c).1 (by rw [hstep]; rfl)
    exact ⟨c, hc, ⟨rest, hremaining⟩, next, hstep, hname⟩
  · rintro ⟨c, -, ⟨rest, hremaining⟩, next, hstep, hname⟩
    exact ⟨_, c, rest, next, hremaining, hstep, hname, rfl⟩

theorem verdict?_eq (h : a.IsComplete S) (ht : OnRun a S w t) :
    t.verdict? = if t.consumed.length < w.length then none else some (a.verdict w) := by
  rw [verdict?]
  cases hremaining : t.remaining with
  | nil =>
      have hword : t.consumed = w := by
        rw [← ht.word, hremaining, List.append_nil]
      have hrun := ht.run
      rw [hword] at hrun
      rw [hword, if_neg (Nat.lt_irrefl _), h.verdict_eq, Table.verdict, hrun, ht.table_eq]
  | cons c rest =>
      have hlt : t.consumed.length < w.length := by
        rw [← ht.word, hremaining]
        simp
      rw [if_pos hlt]

/-- There is no verdict on a word that is not over the alphabet. -/
theorem verdict?_eq_none (h : a.IsComplete S) (ht : OnRun a S w t) {c : Char} (hc : c ∈ w)
    (hnot : ¬ c ∈ S) : t.verdict? = none := by
  rw [verdict?]
  cases hremaining : t.remaining with
  | nil =>
      have hrun := ht.run
      have hword := ht.word
      rw [hremaining, List.append_nil] at hword
      rw [hword] at hrun
      have hall := h.valid_tableOver.run?_isSome_iff _ h.valid_tableOver.start_lt w
      exact absurd (hall.1 (by rw [hrun]; rfl) c hc) hnot
  | cons c rest => rfl

/-- There is one way to move to the end of a word over the alphabet. -/
theorem existsUnique_moves (h : a.IsComplete S) (ht : OnRun a S w t)
    (hS : ∀ c ∈ t.remaining, c ∈ S) :
    ∃! names, t.confirmed names = names.length ∧ (t.after names).verdict? ≠ none := by
  -- by what is left of the word; a move that is confirmed leaves one symbol less
  generalize hrest : t.remaining = rest at hS
  induction rest generalizing t with
  | nil =>
      refine ⟨[], ⟨rfl, by simp [verdict?, hrest]⟩, ?_⟩
      rintro names ⟨hall, -⟩
      cases names with
      | nil => rfl
      | cons name names =>
          obtain ⟨moved, hmove, -⟩ := (t.confirmed_cons_eq_length_iff name names).1 hall
          obtain ⟨c, rest, next, hremaining, -⟩ := exists_of_move_eq_ok hmove
          rw [hrest] at hremaining
          cases hremaining
  | cons c rest ih =>
      obtain ⟨hc, hS⟩ := List.forall_mem_cons.1 hS
      obtain ⟨next, hstep⟩ := Option.isSome_iff_exists.1
        ((h.valid_tableOver.step?_isSome_iff t.current (ht.current_lt h) c).2 hc)
      have hmove := (ht.move_eq_ok_iff h _ _).2 ⟨c, rest, next, hrest, hstep, rfl, rfl⟩
      obtain ⟨names, ⟨hall, hverdict⟩, hunique⟩ := ih (ht.of_move hmove) rfl hS
      refine ⟨(a.tableOver S).name next :: names, ⟨?_, ?_⟩, ?_⟩
      · exact (t.confirmed_cons_eq_length_iff _ names).2 ⟨_, hmove, hall⟩
      · rwa [after_cons, tryMove_of_ok hmove]
      · rintro names' ⟨hall', hverdict'⟩
        cases names' with
        | nil => simp [verdict?, hrest] at hverdict'
        | cons name names' =>
            obtain ⟨moved, hmove', hall'⟩ := (t.confirmed_cons_eq_length_iff name names').1 hall'
            rw [after_cons, tryMove_of_ok hmove'] at hverdict'
            obtain ⟨c', rest', next', hrest', hstep', rfl, rfl⟩ :=
              (ht.move_eq_ok_iff h _ _).1 hmove'
            obtain ⟨rfl, rfl⟩ := List.cons.inj (hrest.symm.trans hrest')
            obtain rfl := Option.some.inj (hstep.symm.trans hstep')
            rw [hunique names' ⟨hall', hverdict'⟩]

end OnRun

/-- A tracer agrees with the run of an automaton when `n` symbols of a word have been read. -/
structure Agrees (a : Automaton) (S : Alphabet) (w : List Char) (n : Nat) (t : Tracer) :
    Prop where
  count_le : n ≤ w.length
  consumed_eq : t.consumed = w.take n
  nextSymbol?_eq : t.nextSymbol? = w[n]?
  /-- What has been read leads from the start state to the current state, and to no other. -/
  path_iff : ∃ p, a.starts = [p] ∧ ∀ q, Path a Label.pieces p.name t.consumed q ↔ q = t.state
  /-- A move is confirmed if it is where the automaton goes on the next symbol. -/
  exists_move_iff : ∀ name, (∃ moved, t.move name = .ok moved) ↔
    ∃ c ∈ S, t.nextSymbol? = some c ∧ Path a Label.pieces t.state [c] name
  tryMove_of_error : ∀ name r, t.move name = .error r → t.tryMove name = t
  verdict?_eq : t.verdict? = if n < w.length then none else some (a.verdict w)

theorem OnRun.agrees (h : a.IsComplete S) (ht : OnRun a S w t) :
    Agrees a S w t.consumed.length t where
  count_le := ht.length_le
  consumed_eq := ht.consumed_eq
  nextSymbol?_eq := ht.nextSymbol?_eq
  path_iff := by
    obtain ⟨p, hp, hget⟩ := h.exists_start
    have hname := (Automaton.getElem?_names_tableOver h.valid_tableOver.start_lt).symm.trans hget
    refine ⟨p, hp, fun q => ?_⟩
    rw [← Option.some.inj hname]
    exact ht.path_iff h q
  exists_move_iff := ht.exists_move_iff h
  tryMove_of_error := fun _ _ => tryMove_of_error
  verdict?_eq := ht.verdict?_eq h

/-- A tracer can be started on the complete deterministic automata. After any moves, right or
wrong, it agrees with the run of the automaton, and the moves that were confirmed are the symbols
that have been read. No moves give a verdict on a word that is not over the alphabet, and for any
other word there is exactly one sequence of confirmed moves that does. -/
theorem start_spec (a : Automaton) (w : List Char) :
    match a.validate none with
    | .error d => start a w = .error d
    | .ok S => ∃ t, start a w = .ok t ∧
        (∀ names, Agrees a S w (t.confirmed names) (t.after names)) ∧
        ((∃ c ∈ w, ¬ c ∈ S) → ∀ names, (t.after names).verdict? = none) ∧
        ((∀ c ∈ w, c ∈ S) →
          ∃! names, t.confirmed names = names.length ∧ (t.after names).verdict? ≠ none) := by
  cases hS : a.validate none with
  | error d => rw [start, Automaton.table?_eq_error hS]
  | ok S =>
      have h := (Automaton.validate_none_eq_ok_iff a S).1 hS
      have ht : OnRun a S w ⟨a.tableOver S, [], w, (a.tableOver S).start⟩ := ⟨rfl, rfl, rfl⟩
      refine ⟨_, by rw [start, h.table?], fun names => ?_, ?_, ht.existsUnique_moves h⟩
      · obtain ⟨hrun, hlength⟩ := ht.after names
        rw [List.length_nil, Nat.zero_add] at hlength
        exact hlength ▸ hrun.agrees h
      · rintro ⟨c, hc, hnot⟩ names
        exact (ht.after names).1.verdict?_eq_none h hc hnot

end FiniteState.Tracer
