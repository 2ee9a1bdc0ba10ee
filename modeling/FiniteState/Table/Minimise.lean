import FiniteState.Automaton.Moves
import FiniteState.Automaton.Validation
import FiniteState.Table.Reachable

/-!
# Minimal tables

The reachable states are divided into blocks, at first the rejecting and the accepting
ones. A block whose members do not lead to the same blocks, symbol by symbol, is split,
until no block is. States in one block are then told apart by no word, and a table with
one state for each block is minimal.

The blocks stay in an order of their own: when one is split, the first part takes its
place and the others go to the end.
-/

namespace FiniteState

/-- States that have not been told apart. -/
abbrev Block := List Nat

/-- A block that was split: its number, and the number of its parts. -/
structure Split where
  block : Nat
  parts : Nat
deriving DecidableEq, Inhabited

namespace Table

/-- The number of the block that holds a state. -/
def blockOf (blocks : List Block) (state : Nat) : Nat :=
  blocks.findIdx fun b => b.contains state

/-- The blocks to which the symbols lead from a state. -/
def signature (t : Table) (blocks : List Block) (state : Nat) : List Nat :=
  (t.next state).map (blockOf blocks)

/-- The members of a block, apart if they lead to different blocks. -/
def partsOf (t : Table) (blocks : List Block) (block : Block) : List Block :=
  (groupOn (t.signature blocks) block).map Prod.snd

/-- The first block, counted from `i`, that has several parts, with its parts. -/
def firstSplit (t : Table) (blocks : List Block) :
    Nat → List Block → Option (Nat × Block × List Block)
  | _, [] => none
  | i, block :: rest =>
      match t.partsOf blocks block with
      | first :: second :: others => some (i, first, second :: others)
      | _ => firstSplit t blocks (i + 1) rest

/-- Splits blocks, one after the other, at most `n` times. Also tells which were split. -/
def refine (t : Table) : Nat → List Block → List Block × List Split
  | 0, blocks => (blocks, [])
  | n + 1, blocks =>
      match t.firstSplit blocks 0 blocks with
      | none => (blocks, [])
      | some (i, first, others) =>
          let rest := refine t n (blocks.set i first ++ others)
          (rest.1, ⟨i, others.length + 1⟩ :: rest.2)

/-- The rejecting and the accepting states that can be reached, as far as there are any. -/
def initialBlocks (t : Table) : List Block :=
  let reached := t.reachable
  [reached.filter fun s => !t.accepting s, reached.filter t.accepting].filter
    fun b => !b.isEmpty

/-- The blocks of states that no word tells apart, and the splits that led to them. -/
def refinement (t : Table) : List Block × List Split := t.refine t.size t.initialBlocks

/-- The blocks of states that no word tells apart. -/
def blocks (t : Table) : List Block := t.refinement.1

/-- The names of blocks. A state that is alone in its block keeps its name; a larger block
is named after its members, with primes if that name is taken. -/
def blockNames (t : Table) (taken : List String) : List Block → List String
  | [] => []
  | [state] :: rest => t.name state :: blockNames t taken rest
  | block :: rest =>
      let name := Text.primed taken (Moves.setName (block.map t.name))
      name :: blockNames t (name :: taken) rest

/-- The names of the states that are alone in their blocks. -/
def singleNames (t : Table) (blocks : List Block) : List String :=
  blocks.filterMap fun b =>
    match b with
    | [state] => some (t.name state)
    | _ => none

/-- The row of a block, read off its first member. -/
def blockRow (t : Table) (blocks : List Block) (block : Block) (name : String) : Row :=
  ⟨name, block.any t.accepting,
    match block with
    | [] => []
    | state :: _ => t.signature blocks state⟩

/-- The table with one state for each block. -/
def quotient (t : Table) (blocks : List Block) : Table :=
  { alphabet := t.alphabet
    start := blockOf blocks t.start
    rows := List.zipWith (t.blockRow blocks) blocks
      (t.blockNames (t.singleNames blocks) blocks) }

/-- The minimal table with the same verdicts. -/
def minimise (t : Table) : Table := t.quotient t.blocks

end Table

namespace Automaton

/-- The minimal complete deterministic automaton with the same verdicts. -/
def minimise (a : Automaton) : Except Defect Automaton :=
  match a.table? with
  | .error d => .error d
  | .ok t => .ok t.minimise.toAutomaton

end Automaton

end FiniteState
