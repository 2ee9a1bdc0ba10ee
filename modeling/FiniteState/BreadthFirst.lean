/-!
# Breadth-first search

One search serves all constructions: states that can be reached, subsets, pairs of
states and witnesses. A visit remembers the steps that led to its node, so the node it
was found from and the labels on the way are read off the visit itself, and nothing has
to be traced back afterwards.
-/

namespace FiniteState

universe u v

/-- A node that a search has come to. -/
structure Visit (α : Type u) (ℓ : Type v) where
  node : α
  /-- The steps that led here, each with the node it left, the last step first. -/
  trail : List (α × ℓ)

namespace Visit

variable {α : Type u} {ℓ : Type v}

def start (a : α) : Visit α ℓ := ⟨a, []⟩

def step (v : Visit α ℓ) (label : ℓ) (a : α) : Visit α ℓ :=
  ⟨a, (v.node, label) :: v.trail⟩

/-- The labels on the way, in the order in which they were met. -/
def labels (v : Visit α ℓ) : List ℓ := v.trail.reverse.map Prod.snd

@[simp] theorem node_start (a : α) : (start a : Visit α ℓ).node = a := rfl

@[simp] theorem node_step (v : Visit α ℓ) (label : ℓ) (a : α) :
    (v.step label a).node = a := rfl

@[simp] theorem labels_start (a : α) : (start a : Visit α ℓ).labels = [] := rfl

@[simp] theorem labels_step (v : Visit α ℓ) (label : ℓ) (a : α) :
    (v.step label a).labels = v.labels ++ [label] := by
  simp [labels, step]

end Visit

namespace BreadthFirst

variable {α : Type u} {ℓ : Type v} [DecidableEq α]

/-- The visits to the new nodes among the neighbours of `v`, in order. -/
def fresh (v : Visit α ℓ) (seen : List α) : List (ℓ × α) → List (Visit α ℓ)
  | [] => []
  | (label, a) :: edges =>
      if a ∈ seen then fresh v seen edges
      else v.step label a :: fresh v (a :: seen) edges

/-- Takes at most `n` visits from the queue and puts the new neighbours of each at its
end. `done` holds the visits taken before, the latest first. -/
def explore (next : α → List (ℓ × α)) :
    Nat → List (Visit α ℓ) → List (Visit α ℓ) → List (Visit α ℓ)
  | 0, done, queue => done.reverse ++ queue
  | _ + 1, done, [] => done.reverse
  | n + 1, done, v :: queue =>
      let seen := (queue ++ v :: done).map Visit.node
      explore next n (v :: done) (queue ++ fresh v seen (next v.node))

/-- The nodes that can be reached from `starts`, in the order in which a breadth-first
search meets them. `bound` is at least the number of these nodes. -/
def search (next : α → List (ℓ × α)) (bound : Nat) (starts : List α) :
    List (Visit α ℓ) :=
  explore next bound [] (starts.map Visit.start)

/-- The nodes of a search without the ways that lead to them. -/
def nodes (next : α → List (ℓ × α)) (bound : Nat) (starts : List α) : List α :=
  (search next bound starts).map Visit.node

@[simp] theorem fresh_nil (v : Visit α ℓ) (seen : List α) : fresh v seen [] = [] := rfl

@[simp] theorem explore_nil (next : α → List (ℓ × α)) (n : Nat)
    (done : List (Visit α ℓ)) : explore next n done [] = done.reverse := by
  cases n <;> simp [explore]

end BreadthFirst

end FiniteState
