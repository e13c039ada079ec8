import GraphsAndCaches.Diagnostic
import GraphsAndCaches.Graph.Basic
import GraphsAndCaches.Graph.Component

/-!
# Depth-first traversal with lowlinks

The traversal meets every vertex once and follows every edge once. A vertex that
is met gets the next index, is put on the stack, and stays open until its
component is known. Its lowlink is the least index among the open vertices that
were found from it, itself included.

All edges of a vertex followed, the vertex is left. If its lowlink is its own
index, nothing open was met before it from there: the vertices on the stack down
to it form a component, which is closed. Either way the vertex from which it was
met takes over its lowlink if that is lower.

The vertices on the way to the present one are kept as frames, each with the
position of the edge to follow next, so that the depth of a graph costs no depth
of recursion. `Search.step` is one turn: follow one edge, or leave one vertex.
Since every edge is followed once and every vertex left once, as many turns as
the graph has vertices and edges are enough.

Marks that an earlier traversal left on the graph are taken off before the first
vertex is met.
-/

namespace GraphsAndCaches

universe u
variable {α : Type u}

/-- What a traversal has found so far. The stack has the vertex met last on top,
which is its head. -/
structure Progress where
  marks : Array (Option Mark)
  counter : Nat := 0
  stack : List VertexId := []
  closed : Array (Component VertexId) := #[]
  journal : Array Diagnostic := #[]
deriving Repr

namespace Progress

/-- Before the first vertex is met, with the marks that are on the vertices of a
graph. Vertices that were added since the last traversal get a place for theirs. -/
def ofGraph (graph : Graph α) : Progress :=
  { marks := graph.vertices.mapIdx fun vertex _ => graph.mark? vertex }

/-- Before the first of so many vertices is met, none of them marked. -/
def start (size : Nat) : Progress := { marks := Array.replicate size none }

/-- A traversal of a graph that was reset starts without marks. -/
theorem ofGraph_reset (graph : Graph α) : ofGraph graph.reset = start graph.size := by
  have marks : (graph.reset.vertices.mapIdx fun vertex _ => graph.reset.mark? vertex) =
      Array.replicate graph.size none := by
    apply Array.ext_getElem?
    intro vertex
    rw [Array.getElem?_mapIdx, Array.getElem?_replicate, Graph.vertices_reset]
    by_cases inside : vertex < graph.size
    · rw [if_pos inside, graph.mark?_reset inside, Array.getElem?_eq_getElem inside]
      rfl
    · rw [if_neg inside, Array.getElem?_eq_none (Nat.le_of_not_lt inside)]
      rfl
  rw [ofGraph, marks, start]

def mark? (progress : Progress) (vertex : VertexId) : Option Mark :=
  progress.marks[vertex]?.join

/-- Meet a vertex: it gets the next index and goes on the stack. -/
def discover (progress : Progress) (vertex : VertexId) : Progress :=
  let { marks, counter, stack, closed, journal } := progress
  { marks := marks.setIfInBounds vertex
      (some { index := counter, lowlink := counter, onStack := true })
    counter := counter + 1
    stack := vertex :: stack
    closed, journal }

/-- Bring the lowlink of a vertex down to a bound. -/
def lower (progress : Progress) (vertex : VertexId) (bound : Nat) : Progress :=
  { progress with
    marks := progress.marks.modify vertex
      (Option.map fun mark => { mark with lowlink := min mark.lowlink bound }) }

/-- Mark vertices as no longer on the stack. -/
def release (marks : Array (Option Mark)) (vertices : List VertexId) :
    Array (Option Mark) :=
  vertices.foldl
    (fun marks vertex => marks.modify vertex (Option.map ({ · with onStack := false })))
    marks

/-- Close the component of a root: its members are the vertices on the stack from
the top down to the root. -/
def close (progress : Progress) (graph : Graph α) (root : VertexId) : Progress :=
  let { marks, counter, stack, closed, journal } := progress
  let (above, below) := stack.span (· != root)
  let members := above ++ below.take 1
  let selfLoop := members.length == 1 && graph.hasSelfLoop root
  { marks := release marks members
    counter
    stack := below.drop 1
    closed := closed.push { members, selfLoop }
    journal := journal.push (.componentClosed root members.length selfLoop) }

end Progress

/-- A vertex on the way to the present one, and the position of the edge to
follow next from it. -/
structure Frame where
  vertex : VertexId
  next : Nat := 0
deriving DecidableEq, Repr

/-- A traversal under way. The present vertex is that of the first frame. -/
structure Search where
  progress : Progress
  frames : List Frame
deriving Repr

namespace Search

/-- Meet a vertex and go on from there. -/
def enter (search : Search) (vertex : VertexId) : Search :=
  let { progress, frames } := search
  { progress := progress.discover vertex, frames := { vertex } :: frames }

/-- Leave a vertex, whose frame is gone already: close its component if it is a
root, and hand its lowlink to the vertex from which it was met. -/
def leave (search : Search) (graph : Graph α) (vertex : VertexId) : Search :=
  let { progress, frames } := search
  match progress.mark? vertex with
  | none => { progress, frames }
  | some { index, lowlink, .. } =>
      let progress := if index = lowlink then progress.close graph vertex else progress
      match frames with
      | [] => { progress, frames }
      | parent :: _ => { progress := progress.lower parent.vertex lowlink, frames }

/-- Follow an edge from `vertex` to `target`. A new target is entered. A target
that is still open bounds the lowlink of the vertex. A closed one is ignored. -/
def follow (search : Search) (vertex target : VertexId) : Search :=
  match search.progress.mark? target with
  | none => search.enter target
  | some mark =>
      if mark.onStack then
        let { progress, frames } := search
        { progress := progress.lower vertex mark.index, frames }
      else search

/-- One turn of the traversal. Without frames there is nothing to do. -/
def step (graph : Graph α) (search : Search) : Search :=
  match search with
  | { frames := [], progress } => { frames := [], progress }
  | { frames := { vertex, next } :: frames, progress } =>
      match graph.target? vertex next with
      | none => leave { progress, frames } graph vertex
      | some target =>
          follow { progress, frames := { vertex, next := next + 1 } :: frames } vertex target

/-- Take turns until no frame is left, but no more than `turns`. -/
def explore (graph : Graph α) : Nat → Search → Search
  | 0, search => search
  | turns + 1, search =>
      if search.frames.isEmpty then search else explore graph turns (step graph search)

/-- Where nothing is left to do, further turns change nothing. -/
theorem explore_of_frames_eq_nil (graph : Graph α) (turns : Nat) {search : Search}
    (finished : search.frames = []) : explore graph turns search = search := by
  cases turns with
  | zero => rfl
  | succ turns => simp [explore, finished]

/-- Turns may be taken in two portions. -/
theorem explore_add (graph : Graph α) (first second : Nat) (search : Search) :
    explore graph (first + second) search =
      explore graph second (explore graph first search) := by
  induction first generalizing search with
  | zero => simp [explore]
  | succ first inductionHypothesis =>
      rw [Nat.succ_add]
      by_cases finished : search.frames = []
      · simp only [explore_of_frames_eq_nil graph _ finished]
      · simp only [explore, List.isEmpty_iff, finished, if_false]
        exact inductionHypothesis _

end Search

namespace Graph

/-- As many turns as a traversal of the whole graph can take. -/
def turns (graph : Graph α) : Nat := graph.size + graph.edgeCount

/-- Traverse what is reached from `root`, if the root was not met before. -/
def visit (graph : Graph α) (turns : Nat) (progress : Progress) (root : VertexId) :
    Progress :=
  if (progress.mark? root).isSome then progress
  else (Search.explore graph turns (Search.enter { progress, frames := [] } root)).progress

/-- Traverse the whole graph, from its vertices in order. The marks that were left
on the graph before are taken off first. -/
def traverse (graph : Graph α) : Progress :=
  graph.vertexIds.foldl (graph.visit graph.turns) (.ofGraph graph.reset)

/-- So they play no part. -/
theorem traverse_eq (graph : Graph α) :
    graph.traverse = graph.vertexIds.foldl (graph.visit graph.turns) (.start graph.size) := by
  rw [traverse, Progress.ofGraph_reset]

end Graph

end GraphsAndCaches
