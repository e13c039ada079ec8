import GraphsAndCaches.Proofs.Graph.Drafts
import GraphsAndCaches.Proofs.Graph.Lowlink
import GraphsAndCaches.Proofs.Graph.Simulation

/-!
# Extensions of a graph

A graph is extended by further vertices, and by edges that leave these and lead anywhere.
Its own vertices keep their values and their edges, so that nothing new is reached from
them.

A traversal visits its roots in the order of the vertices. On an extension it first does
what it does on the graph itself, and when it comes to the first new vertex, all old
components are closed. To compare the two traversals up to there, turn by turn, would mean
to compare marks of different sizes and different numbers of turns. The recursive algorithm
knows neither: on an old vertex it does the same on both graphs, whatever its depth. What
comes later takes nothing back.
-/

namespace GraphsAndCaches

universe u
variable {α : Type u}

/-- A fold does the same with two functions that agree on the items. -/
theorem foldlM_congr {β γ : Type} {left right : γ → β → Option γ} {items : List β}
    (same : ∀ item ∈ items, ∀ state, left state item = right state item) (start : γ) :
    items.foldlM left start = items.foldlM right start := by
  rw [List.foldlM_eq_foldl, List.foldlM_eq_foldl]
  refine List.foldl_ext _ _ _ fun reached item member => ?_
  exact congrArg (reached >>= ·) (funext (same item member))

namespace Graph

/-- The second graph has the vertices of the first one in front, with their values and their
edges. -/
structure Begins (base graph : Graph α) : Prop where
  size_le : base.size ≤ graph.size
  value : ∀ vertex < base.size, graph.value? vertex = base.value? vertex
  targets : ∀ vertex < base.size, graph.targets vertex = base.targets vertex

/-- A graph can be extended by vertices, and by edges whose sources are new. Runs of the
detection may come in between. -/
inductive Extends (base : Graph α) : Graph α → Prop where
  | refl : Extends base base
  | addVertex {graph : Graph α} (value : α) (extension : Extends base graph) :
      Extends base (graph.addVertex value).2
  | addEdge {graph after : Graph α} {source target : VertexId} (extension : Extends base graph)
      (new : base.size ≤ source) (accepted : graph.addEdge source target = (.ok (), after)) :
      Extends base after
  | detect {graph : Graph α} (extension : Extends base graph) : Extends base graph.detect.graph

namespace Extends

variable {base graph : Graph α}

theorem built (extension : base.Extends graph) (builtBase : base.Built) : graph.Built := by
  induction extension with
  | refl => exact builtBase
  | addVertex value _ inductionHypothesis => exact .addVertex value inductionHypothesis
  | addEdge _ _ accepted inductionHypothesis => exact .addEdge inductionHypothesis accepted
  | detect _ inductionHypothesis => exact .detect inductionHypothesis

/-- Any number of accepted edges from new vertices make an extension. -/
theorem addEdges {after : Graph α} (extension : base.Extends graph)
    {edges : List (VertexId × VertexId)} (new : ∀ edge ∈ edges, base.size ≤ edge.1)
    (accepted : graph.addEdges edges = (.ok (), after)) : base.Extends after :=
  addEdges_keeps (fun edge member _ _ before added => .addEdge before (new edge member) added)
    extension accepted

/-- An extension changes nothing about the old vertices. -/
theorem begins (extension : base.Extends graph) : base.Begins graph := by
  induction extension with
  | refl => exact ⟨Nat.le_refl _, fun _ _ => rfl, fun _ _ => rfl⟩
  | @addVertex graph value _ known =>
      refine ⟨?_, fun vertex old => ?_, fun vertex old => ?_⟩
      · rw [size_addVertex]
        exact Nat.le_succ_of_le known.size_le
      · have other : vertex ≠ graph.size := Nat.ne_of_lt (Nat.lt_of_lt_of_le old known.size_le)
        rw [value?_addVertex, if_neg other, known.value vertex old]
      · rw [targets_addVertex, known.targets vertex old]
  | @addEdge graph after source target _ new accepted known =>
      refine ⟨?_, fun vertex old => ?_, fun vertex old => ?_⟩
      · rw [size_of_addEdge accepted]
        exact known.size_le
      · rw [value?_of_addEdge accepted, known.value vertex old]
      · have other : vertex ≠ source := Nat.ne_of_lt (Nat.lt_of_lt_of_le old new)
        rw [targets_of_addEdge accepted, if_neg other, List.append_nil,
          known.targets vertex old]
  | detect _ known => exact ⟨known.size_le, known.value, known.targets⟩

end Extends

/-! ## The old vertices come first -/

namespace Begins

variable {base graph : Graph α}

theorem finish_eq (begins : base.Begins graph) {vertex : VertexId} (old : vertex < base.size)
    (state : Recursion.State) : state.finish graph vertex = state.finish base vertex := by
  simp only [Recursion.State.finish, begins.targets vertex old]

/-- The recursion does the same for an old vertex in both graphs. Induct on the depth; the
edges of an old vertex lead to old vertices. -/
theorem connect_eq (begins : base.Begins graph) (wellFormed : base.WellFormed) (depth : Nat)
    (state : Recursion.State) {vertex : VertexId} (old : vertex < base.size) :
    Recursion.connect graph depth state vertex = Recursion.connect base depth state vertex := by
  induction depth generalizing state vertex with
  | zero => rfl
  | succ depth inductionHypothesis =>
      have follow : ∀ target ∈ base.targets vertex, ∀ state,
          Recursion.follow (Recursion.connect graph depth) vertex state target =
            Recursion.follow (Recursion.connect base depth) vertex state target := by
        intro target edge state
        have targetOld : target < base.size := wellFormed vertex target edge
        simp only [Recursion.follow, inductionHypothesis state targetOld]
      simp only [Recursion.connect, begins.targets vertex old, foldlM_congr follow,
        begins.finish_eq old]

/-- When the old vertices were visited, the traversal is where that of the old graph ends. -/
theorem asState_visitFirst (begins : base.Begins graph) (baseWellFormed : base.WellFormed)
    (wellFormed : graph.WellFormed) :
    (graph.visitFirst base.size).asState = base.traverse.asState := by
  have onGraph := connect_visits wellFormed (Nat.le_refl graph.size)
    (lt_size_of_mem_range begins.size_le) (.start graph)
  have onBase := run_eq_traverse baseWellFormed begins.size_le
  have same : ∀ root ∈ base.vertexIds, ∀ state : Recursion.State,
      (if (state.index root).isSome then some state
        else Recursion.connect graph graph.size state root) =
      if (state.index root).isSome then some state
        else Recursion.connect base graph.size state root := by
    intro root member state
    rw [begins.connect_eq baseWellFormed graph.size state (mem_vertexIds.mp member)]
  rw [Recursion.run, ← foldlM_congr same, vertexIds, ← Progress.asState_start graph.size] at onBase
  exact Option.some.inj (onGraph.symm.trans onBase)

/-- The components of the old graph are closed first. -/
theorem exists_closed_eq (begins : base.Begins graph) (baseWellFormed : base.WellFormed)
    (wellFormed : graph.WellFormed) :
    ∃ further, graph.traverse.closed.toList = base.traverse.closed.toList ++ further := by
  obtain ⟨further, closed⟩ := (visitFirst_continues wellFormed begins.size_le).closed
  have same : (graph.visitFirst base.size).closed.toList = base.traverse.closed.toList :=
    congrArg Recursion.State.components (begins.asState_visitFirst baseWellFormed wellFormed)
  exact ⟨further, by rw [← closed, same]⟩

/-- What is closed later consists of the new vertices. -/
theorem further_perm (begins : base.Begins graph) (baseWellFormed : base.WellFormed)
    (wellFormed : graph.WellFormed) {further : List (Component VertexId)}
    (closed : graph.traverse.closed.toList = base.traverse.closed.toList ++ further) :
    (further.flatMap Component.members).Perm
      (List.range' base.size (graph.size - base.size)) := by
  have whole := popped_perm wellFormed
  rw [flatten_popped, Progress.closedVertices, closed, List.flatMap_append,
    vertexIds_split begins.size_le] at whole
  have front := popped_perm baseWellFormed
  rw [flatten_popped, Progress.closedVertices, vertexIds] at front
  exact (List.perm_append_left_iff _).mp (whole.trans (front.symm.append_right _))

/-- The members of the old components have the values that they had. -/
theorem map_valuesOf (begins : base.Begins graph) (baseWellFormed : base.WellFormed) :
    base.traverse.closed.toList.map graph.valuesOf =
      base.traverse.closed.toList.map base.valuesOf := by
  refine List.map_congr_left fun component closed => ?_
  have same : component.members.filterMap graph.value? =
      component.members.filterMap base.value? := by
    refine List.filterMap_congr fun vertex member => begins.value vertex ?_
    exact lt_size_of_mem_popped baseWellFormed (List.mem_map_of_mem closed) member
  rw [valuesOf, valuesOf, Component.mapMembers, Component.mapMembers, same]

/-- An old vertex has the marks that it gets in the old graph. -/
theorem exists_marks (begins : base.Begins graph) (baseWellFormed : base.WellFormed)
    (wellFormed : graph.WellFormed) {vertex : VertexId} (old : vertex < base.size) :
    ∃ index lowlink,
      base.detect.graph.index? vertex = some index ∧
      base.detect.graph.lowlink? vertex = some lowlink ∧
      graph.detect.graph.index? vertex = some index ∧
      graph.detect.graph.lowlink? vertex = some lowlink := by
  have same := begins.asState_visitFirst baseWellFormed wellFormed
  have sameIndex : (graph.visitFirst base.size).index? vertex = base.traverse.index? vertex :=
    congrArg (Recursion.State.index · vertex) same
  have sameLowlink : (graph.visitFirst base.size).lowlink vertex = base.traverse.lowlink vertex :=
    congrArg (Recursion.State.lowlink · vertex) same
  have met : base.traverse.Met vertex := (traverse_complete baseWellFormed).2 vertex old
  rw [met.index?_eq] at sameIndex
  have firstMet := (Progress.index?_eq_some_iff.mp sameIndex).1
  have continues := visitFirst_continues wellFormed begins.size_le
  refine ⟨_, _, met.index?_eq, lowlink?_detect met, ?_, ?_⟩
  · exact (continues.index?_eq firstMet).trans sameIndex
  · rw [lowlink?_detect (continues.met vertex firstMet),
      lowlink_visitFirst wellFormed begins.size_le firstMet, sameLowlink]

end Begins

/-- An extension does not disturb what there was. The detection first reports the components
of the old graph, as it reports them there, and then components that consist of the new
vertices, each once and with its value. The old vertices get the indices and the lowlinks
that they get in the old graph. -/
theorem detect_extends {base graph : Graph α} (built : base.Built)
    (extension : base.Extends graph) :
    (∃ further : List (Component VertexId),
      graph.traverse.closed.toList = base.traverse.closed.toList ++ further ∧
      graph.detect.components.toList =
        base.detect.components.toList ++ further.map graph.valuesOf ∧
      (further.flatMap Component.members).Perm
        (List.range' base.size (graph.size - base.size)) ∧
      ∀ component ∈ further,
        (graph.valuesOf component).members.map some = component.members.map graph.value?) ∧
      ∀ vertex < base.size, ∃ index lowlink,
        base.detect.graph.index? vertex = some index ∧
        base.detect.graph.lowlink? vertex = some lowlink ∧
        graph.detect.graph.index? vertex = some index ∧
        graph.detect.graph.lowlink? vertex = some lowlink := by
  have baseWellFormed : base.WellFormed := built.wellFormed
  have wellFormed : graph.WellFormed := (extension.built built).wellFormed
  have begins := extension.begins
  refine ⟨?_, fun vertex old => begins.exists_marks baseWellFormed wellFormed old⟩
  obtain ⟨further, closed⟩ := begins.exists_closed_eq baseWellFormed wellFormed
  have components : graph.detect.components.toList =
      graph.traverse.closed.toList.map graph.valuesOf := rfl
  have baseComponents : base.detect.components.toList =
      base.traverse.closed.toList.map base.valuesOf := rfl
  refine ⟨further, closed, ?_, begins.further_perm baseWellFormed wellFormed closed, ?_⟩
  · rw [components, closed, List.map_append, begins.map_valuesOf baseWellFormed, baseComponents]
  · intro component member
    have listed : component ∈ graph.traverse.closed.toList :=
      closed ▸ List.mem_append_right _ member
    refine map_some_valuesOf component fun vertex inside => ?_
    exact lt_size_of_mem_popped wellFormed (List.mem_map_of_mem listed) inside

/-- The sample graph with a second ring that leads into it: the new vertices lead to each
other, one of them to the old ring, and the other one to the vertex with the loop. -/
def ringsAndLoop : Graph Char where
  vertices := ringAndLoop.vertices ++
    #[{ value := 'd', edges := #[0, 5] }, { value := 'e', edges := #[4, 2] }]

theorem ringAndLoop_extends : ringAndLoop.Extends ringsAndLoop := by
  have vertices : ringAndLoop.Extends ((ringAndLoop.addVertex 'd').2.addVertex 'e').2 :=
    .addVertex 'e' (.addVertex 'd' .refl)
  have new : ∀ edge ∈ [(4, 0), (4, 5), (5, 4), (5, 2)], ringAndLoop.size ≤ edge.1 := by decide
  exact vertices.addEdges new rfl

/-- The second ring is one more component, although it leads into components that were closed
before, and the second vertex of the old ring keeps its index and its lowlink. -/
theorem ringsAndLoop_extended :
    ringAndLoop.Built ∧ ringAndLoop.Extends ringsAndLoop ∧
      (∃ further : List (Component VertexId),
        ringsAndLoop.traverse.closed.toList = ringAndLoop.traverse.closed.toList ++ further ∧
        (further.flatMap Component.members).Perm [4, 5]) ∧
      ∃ index lowlink,
        ringAndLoop.detect.graph.index? 1 = some index ∧
        ringAndLoop.detect.graph.lowlink? 1 = some lowlink ∧
        ringsAndLoop.detect.graph.index? 1 = some index ∧
        ringsAndLoop.detect.graph.lowlink? 1 = some lowlink := by
  obtain ⟨⟨further, closed, _, new, _⟩, marks⟩ :=
    detect_extends built_ringAndLoop ringAndLoop_extends
  exact ⟨built_ringAndLoop, ringAndLoop_extends, ⟨further, closed, new⟩, marks 1 (by decide)⟩

end Graph

end GraphsAndCaches
