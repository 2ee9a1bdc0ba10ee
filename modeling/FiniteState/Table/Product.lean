import FiniteState.Automaton.Validation
import FiniteState.Automaton.Witness
import FiniteState.Machine

/-!
# Products

The product of two tables runs both at once, and a boolean function of their answers is
its answer. The tables may have different alphabets: the product reads the symbols of
both, and a table that lacks some of them is completed by a rejecting sink.
-/

namespace FiniteState

/-- How the answers of two machines are combined. -/
inductive BoolOp where
  | and
  | or
  | xor
  /-- Accepted on the left and not on the right. -/
  | minus
deriving DecidableEq, Inhabited

def BoolOp.apply : BoolOp → Bool → Bool → Bool
  | .and, a, b => a && b
  | .or, a, b => a || b
  | .xor, a, b => a != b
  | .minus, a, b => a && !b

namespace Table

def sinkName : String := "∅"

/-- A row over a larger alphabet, in which new symbols lead to `sink`. -/
def widenRow (t : Table) (S : Alphabet) (sink : Nat) (state : Nat) (row : Row) : Row :=
  ⟨row.name, row.accepting, S.symbols.map fun c => (t.step? state c).getD sink⟩

/-- The same table over an alphabet that includes its own. Symbols that it lacks lead to a
new rejecting sink. -/
def completeOver (t : Table) (S : Alphabet) : Table :=
  let rows := t.rows.zipIdx.map fun r => t.widenRow S t.size r.2 r.1
  if (S.without t.alphabet).isEmpty then ⟨S, t.start, rows⟩
  else
    let sink : Row :=
      ⟨Text.primed t.names sinkName, false, S.symbols.map fun _ => t.size⟩
    ⟨S, t.start, rows ++ [sink]⟩

/-- The state to which a symbol leads. Where the table has no answer it stays. -/
def stepOrStay (t : Table) (state : Nat) (c : Char) : Nat :=
  (t.step? state c).getD state

/-- The machine that runs two tables at once. -/
def pairMachine (left right : Table) (accept : Bool → Bool → Bool) :
    Machine (Nat × Nat) where
  start := (left.start, right.start)
  step q c := (left.stepOrStay q.1 c, right.stepOrStay q.2 c)
  accepting q := accept (left.accepting q.1) (right.accepting q.2)
  name q := "(" ++ left.name q.1 ++ "," ++ right.name q.2 ++ ")"

/-- The product of two tables over both alphabets, limited to the pairs of states that
words lead to. -/
def product (left right : Table) (accept : Bool → Bool → Bool) : Table :=
  let S := left.alphabet.union right.alphabet
  let l := left.completeOver S
  let r := right.completeOver S
  (pairMachine l r accept).table S (l.size * r.size)

end Table

namespace Automaton

/-- The product of two complete deterministic automata. -/
def combine (a b : Automaton) (accept : Bool → Bool → Bool) : Except Defect Automaton :=
  match a.table? with
  | .error d => .error d
  | .ok l =>
      match b.table? with
      | .error d => .error d
      | .ok r => .ok (l.product r accept).toAutomaton

/-- Whether two complete deterministic automata have the same alphabet and language. -/
def equivalent (a b : Automaton) : Except Defect Bool :=
  match a.validate none with
  | .error d => .error d
  | .ok S =>
      match b.validate none with
      | .error d => .error d
      | .ok T =>
          if S = T then
            match a.combine b BoolOp.xor.apply with
            | .error d => .error d
            | .ok p => .ok p.isEmpty
          else .ok false

/-- A word that exactly one of two complete deterministic automata accepts. -/
def distinguishing? (a b : Automaton) : Except Defect (Option (List Char)) :=
  match a.combine b BoolOp.xor.apply with
  | .error d => .error d
  | .ok p => .ok p.witness?

end Automaton

end FiniteState
