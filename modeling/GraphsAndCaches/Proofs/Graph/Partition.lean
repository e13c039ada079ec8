import GraphsAndCaches.Proofs.Graph.Work
import Mathlib.Data.List.Pairwise

/-!
# The detected components are the strongly connected components

A traversal takes the vertices of a graph off its stack in lists, one for each
component. These lists hold every vertex exactly once, none of them is empty, and
two vertices share a list exactly when each reaches the other. The components that
the detection reports are these lists, with every vertex replaced by its value.

The marks that earlier runs left on the graph play no part in any of this.
-/

namespace GraphsAndCaches.Graph

universe u
variable {α : Type u} {graph : Graph α}

/-- The vertices of the closed components, in the order in which they left the stack. -/
def popped (graph : Graph α) : List (List VertexId) :=
  graph.traverse.closed.toList.map Component.members

theorem flatten_popped (graph : Graph α) :
    graph.popped.flatten = graph.traverse.closedVertices :=
  List.flatMap_def.symm

/-- In the end a vertex is closed exactly when it belongs to the graph: it was met,
and nothing is left on the stack. -/
theorem mem_closedVertices_traverse (wellFormed : graph.WellFormed) {vertex : Nat} :
    vertex ∈ graph.traverse.closedVertices ↔ vertex < graph.size := by
  obtain ⟨coherent, allMet⟩ := traverse_complete wellFormed
  rw [coherent.mem_closedVertices_iff rfl]
  exact ⟨coherent.lt_size_of_met, allMet vertex⟩

/-- The popped lists together are an arrangement of the vertices. -/
theorem popped_perm (wellFormed : graph.WellFormed) :
    graph.popped.flatten.Perm graph.vertexIds := by
  have settled := (traverse_complete wellFormed).1.settled
  rw [flatten_popped, List.perm_ext_iff_of_nodup settled.nodup graph.nodup_vertexIds]
  intro vertex
  rw [mem_closedVertices_traverse wellFormed, mem_vertexIds]

/-- Every popped vertex belongs to the graph. -/
theorem lt_size_of_mem_popped (wellFormed : graph.WellFormed) {members : List VertexId}
    (listed : members ∈ graph.popped) {vertex : VertexId} (member : vertex ∈ members) :
    vertex < graph.size :=
  mem_vertexIds.mp
    ((popped_perm wellFormed).mem_iff.mp (List.mem_flatten.mpr ⟨members, listed, member⟩))

/-- No member of one component and member of the other reach one another. -/
def Apart (graph : Graph α) (left right : Component VertexId) : Prop :=
  ∀ source ∈ left.members, ∀ target ∈ right.members, ¬ graph.Mutual source target

instance (graph : Graph α) : Std.Symm graph.Apart where
  symm _ _ apart target targetIn source sourceIn together :=
    apart source sourceIn target targetIn together.symm

/-- Members of different components do not reach one another in both directions: the
one that was closed first does not reach the other. -/
theorem eq_of_mutual (wellFormed : graph.WellFormed) {left right : Component VertexId}
    (leftClosed : left ∈ graph.traverse.closed.toList)
    (rightClosed : right ∈ graph.traverse.closed.toList) {source target : VertexId}
    (sourceIn : source ∈ left.members) (targetIn : target ∈ right.members)
    (together : graph.Mutual source target) : left = right := by
  have apart : graph.traverse.closed.toList.Pairwise graph.Apart := by
    refine (traverse_complete wellFormed).1.settled.ordered.imp fun {earlier later} ordered => ?_
    intro source sourceIn target targetIn joined
    exact ordered source sourceIn target targetIn joined.1
  by_contra different
  exact apart.forall leftClosed rightClosed different source sourceIn target targetIn together

theorem nodup_of_mem_popped (wellFormed : graph.WellFormed) {members : List VertexId}
    (listed : members ∈ graph.popped) : members.Nodup := by
  have nodup := (popped_perm wellFormed).nodup_iff.mpr graph.nodup_vertexIds
  exact nodup.sublist (List.sublist_flatten_of_mem listed)

theorem ne_nil_of_mem_popped (wellFormed : graph.WellFormed) {members : List VertexId}
    (listed : members ∈ graph.popped) : members ≠ [] := by
  obtain ⟨component, closed, rfl⟩ := List.mem_map.mp listed
  exact (traverse_complete wellFormed).1.settled.nonempty component closed

/-- A vertex that reaches a popped one and is reached from it is popped with it. -/
theorem mem_popped_of_mutual (wellFormed : graph.WellFormed) {members : List VertexId}
    (listed : members ∈ graph.popped) {vertex other : Nat} (member : vertex ∈ members)
    (inside : other < graph.size) (together : graph.Mutual vertex other) : other ∈ members := by
  obtain ⟨component, closed, rfl⟩ := List.mem_map.mp listed
  obtain ⟨second, secondClosed, otherIn⟩ :=
    List.mem_flatMap.mp ((mem_closedVertices_traverse wellFormed).mpr inside)
  have same : component = second :=
    eq_of_mutual wellFormed closed secondClosed member otherIn together
  exact same ▸ otherIn

/-- Two vertices are popped together exactly when each reaches the other. -/
theorem popped_together_iff (wellFormed : graph.WellFormed) {left right : Nat}
    (leftInside : left < graph.size) (rightInside : right < graph.size) :
    (∃ members ∈ graph.popped, left ∈ members ∧ right ∈ members) ↔
      graph.Mutual left right := by
  constructor
  · rintro ⟨members, listed, leftIn, rightIn⟩
    obtain ⟨component, closed, rfl⟩ := List.mem_map.mp listed
    exact (traverse_complete wellFormed).1.settled.together component closed left leftIn
      right rightIn
  · intro together
    have listed := (popped_perm wellFormed).mem_iff.mpr (mem_vertexIds.mpr leftInside)
    obtain ⟨members, popped, leftIn⟩ := List.mem_flatten.mp listed
    exact ⟨members, popped, leftIn,
      mem_popped_of_mutual wellFormed popped leftIn rightInside together⟩

/-- The vertices of the graph have values, and nothing else has. -/
theorem exists_value? {vertex : Nat} (inside : vertex < graph.size) :
    ∃ value, graph.value? vertex = some value := by
  have stored : graph.vertices[vertex]? = some (graph.vertices[vertex]) :=
    Array.getElem?_eq_getElem inside
  exact ⟨_, by rw [value?, stored]; rfl⟩

/-- Where all members have values, none is lost when they are replaced by them. -/
theorem map_some_valuesOf (component : Component VertexId)
    (inside : ∀ vertex ∈ component.members, vertex < graph.size) :
    (graph.valuesOf component).members.map some = component.members.map graph.value? := by
  rw [valuesOf, Component.mapMembers]
  dsimp only
  generalize component.members = members at inside ⊢
  induction members with
  | nil => rfl
  | cons vertex rest inductionHypothesis =>
      obtain ⟨value, valued⟩ := exists_value? (inside vertex List.mem_cons_self)
      rw [List.filterMap_cons_some valued, List.map_cons, List.map_cons, valued,
        inductionHypothesis fun other member => inside other (List.mem_cons_of_mem _ member)]

/-- The reported components are the popped lists, vertex by vertex. -/
theorem members_detect (wellFormed : graph.WellFormed) :
    (graph.detect.components.toList.map fun component => component.members.map some) =
      graph.popped.map fun members => members.map graph.value? := by
  have components : graph.detect.components.toList =
      graph.traverse.closed.toList.map graph.valuesOf := rfl
  rw [components, popped, List.map_map, List.map_map]
  apply List.map_congr_left
  intro component closed
  apply map_some_valuesOf component
  intro vertex member
  exact lt_size_of_mem_popped wellFormed (List.mem_map_of_mem closed) member

/-- The detection partitions a graph into its strongly connected components. It
reports the popped lists with values for vertices, these lists hold every vertex once,
none is empty, and two vertices share one exactly when each reaches the other. -/
theorem detect_partitions (built : graph.Built) :
    ((graph.detect.components.toList.map fun component => component.members.map some) =
        graph.popped.map fun members => members.map graph.value?) ∧
      graph.popped.flatten.Perm graph.vertexIds ∧
      (∀ members ∈ graph.popped, members ≠ []) ∧
      ∀ left < graph.size, ∀ right < graph.size,
        ((∃ members ∈ graph.popped, left ∈ members ∧ right ∈ members) ↔
          graph.Reaches left right ∧ graph.Reaches right left) := by
  have wellFormed : graph.WellFormed := built.wellFormed
  refine ⟨members_detect wellFormed, popped_perm wellFormed, ?_, ?_⟩
  · intro members listed
    obtain ⟨component, closed, rfl⟩ := List.mem_map.mp listed
    exact (traverse_complete wellFormed).1.settled.nonempty component closed
  · intro left leftInside right rightInside
    exact popped_together_iff wellFormed leftInside rightInside

/-- A ring of two vertices with equal values, a vertex with an edge to itself to which
two parallel edges lead, and a vertex that leads into the ring. -/
def ringAndLoop : Graph Char where
  vertices := #[{ value := 'a', edges := #[1] }, { value := 'a', edges := #[0, 2, 2] },
    { value := 'b', edges := #[2] }, { value := 'c', edges := #[1] }]

theorem built_ringAndLoop : ringAndLoop.Built := by
  have accepted : Graph.ofEdges ['a', 'a', 'b', 'c']
      [(0, 1), (1, 0), (1, 2), (1, 2), (2, 2), (3, 1)] = .ok ringAndLoop := by rfl
  exact .ofEdges accepted

/-- The components of a graph that still has the marks of an earlier run tell which of
its vertices reach one another. -/
theorem ringAndLoop_partitioned :
    ringAndLoop.detect.graph.Built ∧
      ringAndLoop.detect.graph.popped = [[2], [1, 0], [3]] ∧
      ringAndLoop.detect.graph.Mutual 0 1 ∧ ¬ ringAndLoop.detect.graph.Mutual 1 3 := by
  have built : ringAndLoop.detect.graph.Built := .detect built_ringAndLoop
  have popped : ringAndLoop.detect.graph.popped = [[2], [1, 0], [3]] := by decide +kernel
  have together := (detect_partitions built).2.2.2
  refine ⟨built, popped, ?_, ?_⟩
  · refine (together 0 (by decide) 1 (by decide)).mp ?_
    rw [popped]
    decide
  · intro mutualPair
    have shared := (together 1 (by decide) 3 (by decide)).mpr mutualPair
    rw [popped] at shared
    revert shared
    decide

end GraphsAndCaches.Graph
