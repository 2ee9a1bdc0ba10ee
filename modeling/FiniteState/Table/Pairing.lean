import FiniteState.Automaton.Validation

/-!
# Isomorphism

Two tables are the same machine up to the names of their states if their reachable states
can be paired off. The pairing is grown from the pair of the start states by following
each symbol on both sides. It fails at the first pair that disagrees on acceptance, or of
which one state already has another partner.
-/

namespace FiniteState

/-- Why the states of two tables cannot be paired off, with the names of the two states. -/
inductive Mismatch where
  | acceptance (left right : String)
  | partner (left right : String)
deriving DecidableEq, Inhabited

namespace Table

/-- Adds the pairs that are new to a pairing, as long as they fit to it. -/
def joinPairs (left right : Table) (paired : List (Nat × Nat)) :
    List (Nat × Nat) → Except Mismatch (List (Nat × Nat))
  | [] => .ok []
  | p :: ps =>
      if p ∈ paired then joinPairs left right paired ps
      else if (paired.any fun q => q.1 == p.1 || q.2 == p.2) = true then
        .error (.partner (left.name p.1) (right.name p.2))
      else
        match joinPairs left right (paired ++ [p]) ps with
        | .error m => .error m
        | .ok new => .ok (p :: new)

/-- Takes at most `n` pairs from the queue and follows all symbols from each. -/
def growPairing (left right : Table) :
    Nat → List (Nat × Nat) → List (Nat × Nat) → Except Mismatch (List (Nat × Nat))
  | 0, done, queue => .ok (done ++ queue)
  | _ + 1, done, [] => .ok done
  | n + 1, done, p :: queue =>
      if left.accepting p.1 = right.accepting p.2 then
        match joinPairs left right (done ++ p :: queue)
            ((left.next p.1).zip (right.next p.2)) with
        | .error m => .error m
        | .ok new => growPairing left right n (done ++ [p]) (queue ++ new)
      else .error (.acceptance (left.name p.1) (right.name p.2))

/-- The pairs of states that correspond to each other. -/
def pairing (left right : Table) : Except Mismatch (List (Nat × Nat)) :=
  growPairing left right left.size [] [(left.start, right.start)]

/-- Whether the tables have the same number of states and the same alphabet, so that a
pairing can be tried. -/
def comparable (left right : Table) : Bool :=
  left.size == right.size && decide (left.alphabet = right.alphabet)

/-- Whether the tables are the same machine up to the names of their states. -/
def isomorphic (left right : Table) : Bool :=
  left.comparable right && (left.pairing right).toBool

end Table

namespace Automaton

/-- Whether two complete deterministic automata are the same up to the names of their
states. -/
def isomorphic (a b : Automaton) : Bool :=
  match a.table?, b.table? with
  | .ok l, .ok r => l.isomorphic r
  | _, _ => false

end Automaton

end FiniteState
