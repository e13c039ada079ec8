import GraphsAndCaches.Errors

/-!
# Directed graphs

A graph is a sequence of vertices, each with a value and an ordered list of
outgoing edges. Vertices are named by position, so equal values on different
vertices never confuse them. The order of vertices and the order of the edges of
a vertex are those in which they were added; both decide the order of what a
traversal reports.

A graph also keeps the marks that the last traversal left on its vertices.
Vertices that were added since have none. `Graph.check` verifies the edges and
these marks.
-/

namespace GraphsAndCaches

universe u
variable {α : Type u}

/-- A value, and the targets of the edges that leave it, in order. -/
structure Vertex (α : Type u) where
  value : α
  edges : Array VertexId := #[]
deriving Repr

/-- What a traversal knows about a vertex that it has met: when it met it, the
earliest open vertex that it found from there, and whether it is still open. -/
structure Mark where
  index : Nat
  lowlink : Nat
  onStack : Bool
deriving DecidableEq, Repr

/-- Vertices in order, and the marks of the last traversal. -/
structure Graph (α : Type u) where
  vertices : Array (Vertex α) := #[]
  marks : Array (Option Mark) := #[]
deriving Repr

namespace Graph

/-- The graph without vertices. -/
def empty : Graph α := {}

instance : Inhabited (Graph α) := ⟨empty⟩

/-- The number of vertices. -/
def size (graph : Graph α) : Nat := graph.vertices.size

def isEmpty (graph : Graph α) : Bool := graph.vertices.isEmpty

/-- The number of edges, each counted as often as it was added. -/
def edgeCount (graph : Graph α) : Nat :=
  graph.vertices.foldl (fun count vertex => count + vertex.edges.size) 0

/-- Add a vertex without edges, and name it. -/
def addVertex (graph : Graph α) (value : α) : VertexId × Graph α :=
  let { vertices, marks } := graph
  (vertices.size, { vertices := vertices.push { value }, marks })

/-- Add an edge behind the other edges of its source. Both ends must be vertices
of the graph; when neither is, the target is the one that is named. -/
def addEdge (graph : Graph α) (source target : VertexId) : Except GraphError Unit × Graph α :=
  if graph.size ≤ target then (.error (.unknownVertex target), graph)
  else if graph.size ≤ source then (.error (.unknownVertex source), graph)
  else
    let { vertices, marks } := graph
    (.ok (), {
      vertices := vertices.modify source fun vertex =>
        { vertex with edges := vertex.edges.push target }
      marks })

/-- Adding a vertex adds one vertex. -/
@[simp]
theorem size_addVertex (graph : Graph α) (value : α) :
    (graph.addVertex value).2.size = graph.size + 1 := by
  simp [addVertex, size]

/-- A new vertex is named by the number of those before it. -/
@[simp]
theorem fst_addVertex (graph : Graph α) (value : α) :
    (graph.addVertex value).1 = graph.size := rfl

/-- An edge between vertices of the graph is accepted, and nothing but the edges of
its source changes. -/
theorem addEdge_of_inside {graph : Graph α} {source target : Nat}
    (sourceInside : source < graph.size) (targetInside : target < graph.size) :
    graph.addEdge source target =
      (.ok (), { graph with
        vertices := graph.vertices.modify source fun vertex =>
          { vertex with edges := vertex.edges.push target } }) := by
  rw [addEdge, if_neg (Nat.not_le_of_lt targetInside), if_neg (Nat.not_le_of_lt sourceInside)]

/-- Any other edge is refused, and the graph is left as it was. -/
theorem addEdge_of_outside {graph : Graph α} {source target : Nat}
    (outside : ¬ (source < graph.size ∧ target < graph.size)) :
    graph.addEdge source target =
      (.error (.unknownVertex (if graph.size ≤ target then target else source)), graph) := by
  rw [addEdge]
  by_cases targetMissing : graph.size ≤ target
  · rw [if_pos targetMissing, if_pos targetMissing]
  · have sourceMissing : graph.size ≤ source :=
      Nat.le_of_not_lt fun inside => outside ⟨inside, Nat.lt_of_not_le targetMissing⟩
    rw [if_neg targetMissing, if_pos sourceMissing, if_neg targetMissing]

/-- An edge is accepted exactly between vertices of the graph. -/
theorem addEdge_isOk_iff (graph : Graph α) (source target : Nat) :
    (∃ after, graph.addEdge source target = (.ok (), after)) ↔
      source < graph.size ∧ target < graph.size := by
  constructor
  · rintro ⟨after, accepted⟩
    apply Decidable.byContradiction
    intro outside
    exact nomatch (addEdge_of_outside outside).symm.trans accepted
  · rintro ⟨sourceInside, targetInside⟩
    exact ⟨_, addEdge_of_inside sourceInside targetInside⟩

/-- Both ends of an accepted edge are vertices, and nothing but the edges of its source
changes. -/
theorem eq_of_addEdge {graph after : Graph α} {source target : VertexId}
    (accepted : graph.addEdge source target = (.ok (), after)) :
    source < graph.size ∧ target < graph.size ∧
      after = { graph with
        vertices := graph.vertices.modify source fun vertex =>
          { vertex with edges := vertex.edges.push target } } := by
  obtain ⟨sourceInside, targetInside⟩ :=
    (addEdge_isOk_iff graph source target).mp ⟨after, accepted⟩
  rw [addEdge_of_inside sourceInside targetInside] at accepted
  exact ⟨sourceInside, targetInside, (congrArg Prod.snd accepted).symm⟩

/-- An edge adds no vertex. -/
theorem size_of_addEdge {graph after : Graph α} {source target : VertexId}
    (accepted : graph.addEdge source target = (.ok (), after)) : after.size = graph.size := by
  obtain ⟨_, _, rfl⟩ := eq_of_addEdge accepted
  simp [size]

/-- A graph that refuses an edge is left as it was. -/
theorem eq_of_addEdge_error {graph after : Graph α} {source target : VertexId}
    {error : GraphError} (refused : graph.addEdge source target = (.error error, after)) :
    after = graph := by
  by_cases inside : source < graph.size ∧ target < graph.size
  · exact nomatch (addEdge_of_inside inside.1 inside.2).symm.trans refused
  · exact congrArg Prod.snd (refused.symm.trans (addEdge_of_outside inside))

/-- Add a vertex for each of the values, in order. -/
def addVertices (graph : Graph α) (values : List α) : Graph α :=
  values.foldl (fun graph value => (graph.addVertex value).2) graph

/-- Add edges in order, up to the first that is refused. -/
def addEdges (graph : Graph α) :
    List (VertexId × VertexId) → Except GraphError Unit × Graph α
  | [] => (.ok (), graph)
  | (source, target) :: rest =>
      match graph.addEdge source target with
      | (.ok (), graph) => graph.addEdges rest
      | (.error error, graph) => (.error error, graph)

theorem addEdges_cons_of_ok {graph after : Graph α} {source target : VertexId}
    (accepted : graph.addEdge source target = (.ok (), after))
    (rest : List (VertexId × VertexId)) :
    graph.addEdges ((source, target) :: rest) = after.addEdges rest := by
  rw [addEdges, accepted]

/-- None is tried after an edge that is refused. -/
theorem addEdges_cons_of_error {graph after : Graph α} {source target : VertexId}
    {error : GraphError} (refused : graph.addEdge source target = (.error error, after))
    (rest : List (VertexId × VertexId)) :
    graph.addEdges ((source, target) :: rest) = (.error error, after) := by
  rw [addEdges, refused]

/-- Edges that are accepted are in place when the others are tried. -/
theorem addEdges_append_of_ok {graph reached : Graph α} {front : List (VertexId × VertexId)}
    (accepted : graph.addEdges front = (.ok (), reached)) (back : List (VertexId × VertexId)) :
    graph.addEdges (front ++ back) = reached.addEdges back := by
  induction front generalizing graph with
  | nil =>
      obtain rfl : graph = reached := congrArg Prod.snd accepted
      rfl
  | cons edge rest inductionHypothesis =>
      obtain ⟨source, target⟩ := edge
      rcases first : graph.addEdge source target with ⟨⟨error⟩ | ⟨⟩, next⟩
      · rw [addEdges_cons_of_error first] at accepted
        exact nomatch accepted
      · rw [addEdges_cons_of_ok first] at accepted
        rw [List.cons_append, addEdges_cons_of_ok first]
        exact inductionHypothesis accepted

/-- The graph of the given values and of edges between their positions. The first
edge that does not fit decides the error. -/
def ofEdges (values : List α) (edges : List (VertexId × VertexId)) :
    Except GraphError (Graph α) :=
  match (empty.addVertices values).addEdges edges with
  | (.ok (), graph) => .ok graph
  | (.error error, _) => .error error

/-- The names of the vertices, in order. -/
def vertexIds (graph : Graph α) : List VertexId := List.range graph.size

def value? (graph : Graph α) (vertex : VertexId) : Option α :=
  graph.vertices[vertex]?.map Vertex.value

/-- The targets of the edges of a vertex, in order. -/
def edges? (graph : Graph α) (vertex : VertexId) : Option (Array VertexId) :=
  graph.vertices[vertex]?.map Vertex.edges

/-- The target of the edge of a vertex at a position. -/
def target? (graph : Graph α) (vertex : VertexId) (position : Nat) : Option VertexId :=
  graph.vertices[vertex]?.bind (·.edges[position]?)

/-- Whether a vertex has an edge to itself. -/
def hasSelfLoop (graph : Graph α) (vertex : VertexId) : Bool :=
  (graph.edges? vertex).any (·.contains vertex)

/-- The mark that the last traversal left on a vertex. -/
def mark? (graph : Graph α) (vertex : VertexId) : Option Mark := graph.marks[vertex]?.join

/-- Take the mark off a vertex. -/
def unmark (graph : Graph α) (vertex : VertexId) : Graph α :=
  let { vertices, marks } := graph
  { vertices, marks := marks.setIfInBounds vertex none }

/-- Take the marks off all vertices, one after another. -/
def reset (graph : Graph α) : Graph α := graph.vertexIds.foldl unmark graph

/-- No other vertex loses its mark. -/
theorem mark?_unmark (graph : Graph α) (vertex other : VertexId) :
    (graph.unmark vertex).mark? other = if other = vertex then none else graph.mark? other := by
  simp only [mark?, unmark, Array.getElem?_setIfInBounds]
  by_cases same : vertex = other
  · subst same
    rw [if_pos rfl, if_pos rfl]
    split <;> rfl
  · rw [if_neg same, if_neg (Ne.symm same)]

theorem vertices_foldl_unmark (graph : Graph α) (vertices : List VertexId) :
    (vertices.foldl unmark graph).vertices = graph.vertices := by
  induction vertices generalizing graph with
  | nil => rfl
  | cons vertex rest inductionHypothesis => exact inductionHypothesis (graph.unmark vertex)

/-- Once a mark was taken off it does not come back. -/
theorem mark?_foldl_unmark (graph : Graph α) (vertices : List VertexId) (vertex : VertexId) :
    (vertices.foldl unmark graph).mark? vertex =
      if vertex ∈ vertices then none else graph.mark? vertex := by
  induction vertices generalizing graph with
  | nil => rfl
  | cons first rest inductionHypothesis =>
      rw [List.foldl_cons, inductionHypothesis, mark?_unmark]
      by_cases listed : vertex ∈ rest
      · rw [if_pos listed, if_pos (List.mem_cons_of_mem first listed)]
      · rw [if_neg listed]
        simp only [List.mem_cons, listed, or_false]

/-- A reset changes neither values nor edges. -/
@[simp]
theorem vertices_reset (graph : Graph α) : graph.reset.vertices = graph.vertices :=
  vertices_foldl_unmark graph graph.vertexIds

/-- After a reset no vertex has a mark. -/
theorem mark?_reset (graph : Graph α) {vertex : Nat} (inside : vertex < graph.size) :
    graph.reset.mark? vertex = none := by
  have listed : vertex ∈ graph.vertexIds := List.mem_range.mpr inside
  rw [reset, mark?_foldl_unmark, if_pos listed]

/-- When the last traversal met a vertex, counted from zero. -/
def index? (graph : Graph α) (vertex : VertexId) : Option Nat :=
  (graph.mark? vertex).map Mark.index

/-- The lowlink that the last traversal computed for a vertex. -/
def lowlink? (graph : Graph α) (vertex : VertexId) : Option Nat :=
  (graph.mark? vertex).map Mark.lowlink

/-- Every edge of a vertex leads to a vertex of the graph, and its mark is one
that a completed traversal leaves. The first of these that fails is the defect. -/
def checkVertex (graph : Graph α) (vertex : VertexId) : Except InvariantViolation Unit := do
  if let some target := ((graph.edges? vertex).getD #[]).find? (graph.size ≤ ·) then
    throw ⟨s!"vertex {vertex} has an edge to missing vertex {target}"⟩
  if let some { index, lowlink, onStack } := graph.mark? vertex then
    if onStack then
      throw ⟨s!"vertex {vertex} is still marked as on the traversal stack"⟩
    if index < lowlink then
      throw ⟨s!"vertex {vertex} has lowlink {lowlink} above its index {index}"⟩

/-- Check the vertices in order, up to the first defect. -/
def check (graph : Graph α) : Except InvariantViolation Unit :=
  graph.vertexIds.forM graph.checkVertex

end Graph

end GraphsAndCaches
