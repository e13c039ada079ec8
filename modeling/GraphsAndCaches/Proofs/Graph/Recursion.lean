import GraphsAndCaches.Proofs.Graph.Work
import Mathlib.Logic.Function.Basic

/-!
# The recursive algorithm

The algorithm of a traversal is usually told as a recursion. To connect a vertex is
to discover it, to follow its edges in order, and to finish it. An edge to a vertex
that was not visited connects that vertex first, and takes over its lowlink when the
recursion returns. An edge to a vertex on the stack takes over its index. A vertex
whose lowlink is its own index is finished by popping the stack down to it.

`State` holds what this algorithm knows in its own terms: indices and lowlinks as
functions of the vertices, and no marks, so that being on the stack is membership in
the stack. The recursion is bounded in depth; a vertex too deep has no answer.

A traversal with frames and the recursion are compared in `Simulation`.
-/

namespace GraphsAndCaches.Recursion

universe u
variable {α : Type u}

/-- What the recursion has found so far. A vertex without an index was not visited. -/
structure State where
  counter : Nat := 0
  index : VertexId → Option Nat := fun _ => none
  lowlink : VertexId → Nat := fun _ => 0
  stack : List VertexId := []
  components : List (Component VertexId) := []

namespace State

/-- The next index becomes index and lowlink of a vertex, which goes on the stack. -/
def discover (state : State) (vertex : VertexId) : State where
  counter := state.counter + 1
  index := Function.update state.index vertex (some state.counter)
  lowlink := Function.update state.lowlink vertex state.counter
  stack := vertex :: state.stack
  components := state.components

/-- The lowlink of a vertex becomes the smaller of itself and a bound. -/
def lower (state : State) (vertex : VertexId) (bound : Nat) : State :=
  { state with
    lowlink := Function.update state.lowlink vertex (min (state.lowlink vertex) bound) }

/-- What is popped off a stack down to a vertex, the vertex included, and the rest. -/
def popTo (vertex : VertexId) : List VertexId → List VertexId × List VertexId
  | [] => ([], [])
  | top :: rest =>
      if top = vertex then ([top], rest)
      else (top :: (popTo vertex rest).1, (popTo vertex rest).2)

/-- A vertex whose lowlink is its index pops its component. A component of one vertex
is flagged when that vertex has an edge to itself. -/
def finish (graph : Graph α) (state : State) (vertex : VertexId) : State :=
  if state.index vertex = some (state.lowlink vertex) then
    let (members, stack) := popTo vertex state.stack
    { state with
      stack
      components := state.components ++
        [{ members, selfLoop := members.length == 1 && decide (vertex ∈ graph.targets vertex) }] }
  else state

end State

/-- Follow one edge, where `descend` connects a vertex that was not visited. -/
def follow (descend : State → VertexId → Option State) (source : VertexId) (state : State)
    (target : VertexId) : Option State :=
  match state.index target with
  | none => do
      let returned ← descend state target
      return returned.lower source (returned.lowlink target)
  | some index => return if target ∈ state.stack then state.lower source index else state

/-- Discover a vertex, follow its edges in order, and finish it. There is no answer
when the recursion would go deeper than allowed. -/
def connect (graph : Graph α) : Nat → State → VertexId → Option State
  | 0, _, _ => none
  | depth + 1, state, vertex => do
      let followed ←
        (graph.targets vertex).foldlM (follow (connect graph depth) vertex) (state.discover vertex)
      return followed.finish graph vertex

/-- Connect every vertex that is still unvisited when its turn comes. -/
def run (graph : Graph α) (depth : Nat) : Option State :=
  graph.vertexIds.foldlM
    (fun state root =>
      if (state.index root).isSome then some state else connect graph depth state root)
    {}

end GraphsAndCaches.Recursion
