import GraphsAndCaches.Graph.Traversal

/-!
# Detection of components

Detection traverses a graph and reports its strongly connected components as
lists of vertex values. The graph that it yields differs from the given one in its
marks alone, which are those of this traversal. The journal tells of every
component when it was closed, and at the end sums up the run.
-/

namespace GraphsAndCaches

universe u
variable {α : Type u}

/-- The outcome of one run over a graph. -/
structure Detection (α : Type u) where
  components : Components α
  graph : Graph α
  journal : Array Diagnostic

namespace Graph

/-- The values of the vertices of a component. -/
def valuesOf (graph : Graph α) (component : Component VertexId) : Component α :=
  component.mapMembers graph.value?

/-- Partition a graph into its strongly connected components. -/
def detect (graph : Graph α) : Detection α :=
  let progress := graph.traverse
  let components : Components α := ⟨progress.closed.toList.map graph.valuesOf⟩
  { components
    graph := { graph with marks := progress.marks }
    journal := progress.journal.push
      (.componentsResolved graph.size components.size components.cycles.length) }

end Graph

end GraphsAndCaches
