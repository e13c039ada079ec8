import GraphsAndCaches.Proofs.Graph.Partition

/-!
# The order in which components are reported

Every vertex of a graph is reported at exactly one position in the list of components.
A path never leads to a later position: what is reachable from a component was closed
before it, or with it. Hence an edge between two components leads from the one that is
reported later to the one that is reported earlier, which makes the report a reverse
topological order of the components. This holds across the trees of a traversal as well
as within one, since an edge into an earlier tree finds its target closed.
-/

namespace GraphsAndCaches.Graph

universe u
variable {α : Type u} {graph : Graph α} {source target vertex : VertexId}
variable {position earlier later : Nat}

/-- The vertex is a member of the component that is reported at this position. -/
def ReportedAt (graph : Graph α) (position : Nat) (vertex : VertexId) : Prop :=
  ∃ members, graph.popped[position]? = some members ∧ vertex ∈ members

/-- Every vertex of the graph is reported somewhere. -/
theorem exists_reportedAt (wellFormed : graph.WellFormed) (inside : vertex < graph.size) :
    ∃ position, graph.ReportedAt position vertex := by
  have listed := (popped_perm wellFormed).mem_iff.mpr (mem_vertexIds.mpr inside)
  obtain ⟨members, reported, member⟩ := List.mem_flatten.mp listed
  obtain ⟨position, found⟩ := List.getElem?_of_mem reported
  exact ⟨position, members, found, member⟩

/-- What is reported at a position is the value of each member there. -/
theorem component_at (wellFormed : graph.WellFormed) (position : Nat) :
    (graph.detect.components.toList[position]?.map fun component =>
        component.members.map some) =
      graph.popped[position]?.map fun members => members.map graph.value? := by
  rw [← List.getElem?_map, ← List.getElem?_map, members_detect wellFormed]

/-- No path leads from a component to one that is reported later. The later one was
still open, or not met, when the earlier one was closed, and no path leaves what is
closed. -/
theorem ReportedAt.not_reaches (wellFormed : graph.WellFormed)
    (first : graph.ReportedAt earlier source) (second : graph.ReportedAt later target)
    (before : earlier < later) : ¬ graph.Reaches source target := by
  obtain ⟨leftMembers, leftFound, sourceIn⟩ := first
  obtain ⟨rightMembers, rightFound, targetIn⟩ := second
  rw [popped, List.getElem?_map, Option.map_eq_some_iff] at leftFound rightFound
  obtain ⟨left, leftClosed, rfl⟩ := leftFound
  obtain ⟨right, rightClosed, rfl⟩ := rightFound
  obtain ⟨leftInside, rfl⟩ := List.getElem?_eq_some_iff.mp leftClosed
  obtain ⟨rightInside, rfl⟩ := List.getElem?_eq_some_iff.mp rightClosed
  have ordered := List.pairwise_iff_getElem.mp (traverse_complete wellFormed).1.settled.ordered
  exact ordered earlier later leftInside rightInside before source sourceIn target targetIn

/-- A path leads to the same component or to one that was reported before. -/
theorem ReportedAt.le_of_reaches (wellFormed : graph.WellFormed)
    (first : graph.ReportedAt later source) (second : graph.ReportedAt earlier target)
    (path : graph.Reaches source target) : earlier ≤ later := by
  by_contra after
  exact first.not_reaches wellFormed second (Nat.lt_of_not_le after) path

/-- A vertex is reported once, since it reaches itself. -/
theorem ReportedAt.unique (wellFormed : graph.WellFormed)
    (first : graph.ReportedAt position vertex) (second : graph.ReportedAt later vertex) :
    position = later :=
  Nat.le_antisymm (second.le_of_reaches wellFormed first (.refl graph vertex))
    (first.le_of_reaches wellFormed second (.refl graph vertex))

/-- The detection reports components in reverse topological order. The component at a
position has the values of the members there, and every vertex is reported at exactly one
position. No path leads from a component to a later one, and so every edge between two
components leads from the later to the earlier one. -/
theorem detect_reverse_topological (built : graph.Built) :
    (∀ position : Nat,
      (graph.detect.components.toList[position]?.map fun component =>
          component.members.map some) =
        graph.popped[position]?.map fun members => members.map graph.value?) ∧
      (∀ vertex < graph.size, ∃! position, graph.ReportedAt position vertex) ∧
      (∀ earlier later, earlier < later → ∀ source target, graph.ReportedAt earlier source →
        graph.ReportedAt later target →
          ¬ graph.Edge source target ∧ ¬ graph.Reaches source target) ∧
      ∀ source target, graph.Edge source target →
        source < graph.size ∧ target < graph.size ∧
          ∀ first second, graph.ReportedAt first source → graph.ReportedAt second target →
            first ≠ second → second < first := by
  have wellFormed : graph.WellFormed := built.wellFormed
  refine ⟨component_at wellFormed, ?_, ?_, ?_⟩
  · intro vertex inside
    obtain ⟨position, reported⟩ := exists_reportedAt wellFormed inside
    exact ⟨position, reported, fun other again => again.unique wellFormed reported⟩
  · intro earlier later before source target first second
    have apart := first.not_reaches wellFormed second before
    exact ⟨fun edge => apart (.ofEdge edge), apart⟩
  · intro source target edge
    refine ⟨edge.source_lt_size, wellFormed source target edge, ?_⟩
    intro first second sourceAt targetAt different
    have notAfter := sourceAt.le_of_reaches wellFormed targetAt (.ofEdge edge)
    exact Nat.lt_of_le_of_ne notAfter (Ne.symm different)

/-- In the sample graph the loop is reported first, although the ring that leads to it
was met first. The last vertex leads into the ring from a tree of its own. -/
theorem ringAndLoop_reverse_topological :
    ringAndLoop.Built ∧ ringAndLoop.popped = [[2], [1, 0], [3]] ∧
      ringAndLoop.Edge 1 2 ∧ ¬ ringAndLoop.Reaches 2 0 ∧
      ringAndLoop.Edge 3 1 ∧ ¬ ringAndLoop.Reaches 0 3 := by
  have popped : ringAndLoop.popped = [[2], [1, 0], [3]] := by decide +kernel
  have reported : ∀ position members, [[2], [1, 0], [3]][position]? = some members →
      ∀ vertex ∈ members, ringAndLoop.ReportedAt position vertex := by
    intro position members found vertex member
    exact ⟨members, popped ▸ found, member⟩
  have ordered := (detect_reverse_topological built_ringAndLoop).2.2.1
  refine ⟨built_ringAndLoop, popped, by decide, ?_, by decide, ?_⟩
  · exact (ordered 0 1 (by decide) 2 0 (reported 0 [2] rfl 2 (by decide))
      (reported 1 [1, 0] rfl 0 (by decide))).2
  · exact (ordered 1 2 (by decide) 0 3 (reported 1 [1, 0] rfl 0 (by decide))
      (reported 2 [3] rfl 3 (by decide))).2

end GraphsAndCaches.Graph
