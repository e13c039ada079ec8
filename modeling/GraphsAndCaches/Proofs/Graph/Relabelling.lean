import GraphsAndCaches.Proofs.Graph.Drafts
import GraphsAndCaches.Proofs.Graph.Partition

/-!
# Values are labels

A vertex is known by its position. The value that it holds is a label, which is looked up when
the components are reported and never before, and so nothing depends on which labels are equal.

To relabel a graph is to replace every value by its image under a function, injective or not.
The relabelled graph has the same shape, is traversed alike and gets the same marks, and its
components are the relabelled components. As relabelling also commutes with all that can be
done to a graph, a history with other values leads to the graph with other values, marks of
earlier runs included.
-/

namespace GraphsAndCaches

universe u v
variable {α : Type u} {β : Type v}

/-- The same component with images for members. -/
def Component.map (image : α → β) (component : Component α) : Component β where
  members := component.members.map image
  selfLoop := component.selfLoop

/-- The same components in the same order, each with images for members. -/
def Components.map (image : α → β) (components : Components α) : Components β where
  toList := components.toList.map (Component.map image)

/-- Images take nothing away and add nothing, so there are as many cycles as before. -/
theorem Components.length_cycles_map (image : α → β) (components : Components α) :
    (components.map image).cycles.length = components.cycles.length := by
  have sameKind : Component.isCycle ∘ Component.map image = Component.isCycle := by
    funext component
    exact congrArg (fun size => decide (1 < size)) (List.length_map image)
  rw [cycles, cycles, map, List.filter_map, List.length_map, sameKind]

namespace Graph

/-- The same graph with the image of its value on every vertex. -/
def mapValues (image : α → β) (graph : Graph α) : Graph β where
  vertices := graph.vertices.map fun vertex =>
    { value := image vertex.value, edges := vertex.edges }
  marks := graph.marks

variable (image : α → β) (graph : Graph α)

theorem size_mapValues : (graph.mapValues image).size = graph.size := Array.size_map

theorem value?_mapValues (vertex : VertexId) :
    (graph.mapValues image).value? vertex = (graph.value? vertex).map image := by
  simp only [value?, mapValues, Array.getElem?_map, Option.map_map]
  rfl

theorem targets_mapValues (vertex : VertexId) :
    (graph.mapValues image).targets vertex = graph.targets vertex := by
  simp only [targets, edges?, mapValues, Array.getElem?_map, Option.map_map]
  rfl

theorem sameShape_mapValues : (graph.mapValues image).SameShape graph :=
  ⟨size_mapValues image graph, targets_mapValues image graph⟩

/-- The values of a component are looked up vertex by vertex. -/
theorem valuesOf_mapValues (component : Component VertexId) :
    (graph.mapValues image).valuesOf component = (graph.valuesOf component).map image := by
  have values : (graph.mapValues image).value? = fun vertex => (graph.value? vertex).map image :=
    funext (value?_mapValues image graph)
  rw [valuesOf, valuesOf, Component.mapMembers, Component.mapMembers, Component.map, values,
    List.map_filterMap]

theorem components_detect_mapValues :
    (graph.mapValues image).detect.components = graph.detect.components.map image := by
  have valuesOf : (graph.mapValues image).valuesOf = Component.map image ∘ graph.valuesOf :=
    funext (valuesOf_mapValues image graph)
  simp only [detect, Components.map, (sameShape_mapValues image graph).traverse_eq, valuesOf,
    List.map_map]

theorem graph_detect_mapValues :
    (graph.mapValues image).detect.graph = graph.detect.graph.mapValues image := by
  simp only [detect, mapValues, ← (sameShape_mapValues image graph).traverse_eq]

/-- The journal tells of positions and numbers, not of values. -/
theorem journal_detect_mapValues :
    (graph.mapValues image).detect.journal = graph.detect.journal := by
  have components := components_detect_mapValues image graph
  simp only [detect] at components ⊢
  rw [components, (sameShape_mapValues image graph).traverse_eq, size_mapValues,
    Components.length_cycles_map, Components.size, Components.map, List.length_map]
  rfl

/-! ## Relabelling and the ways to work on a graph -/

theorem empty_mapValues : (empty : Graph α).mapValues image = empty := by
  simp only [mapValues, empty, Array.map_empty]

theorem addVertex_mapValues (value : α) :
    ((graph.mapValues image).addVertex (image value)).2 =
      (graph.addVertex value).2.mapValues image := by
  simp only [addVertex, mapValues, Array.map_push]

/-- An edge is accepted or rejected whatever the values are. -/
theorem addEdge_mapValues (source target : VertexId) :
    (graph.mapValues image).addEdge source target =
      (graph.addEdge source target).map id (mapValues image) := by
  have vertices : ((graph.mapValues image).vertices.modify source fun vertex =>
        { vertex with edges := vertex.edges.push target }) =
      (graph.vertices.modify source fun vertex =>
        { vertex with edges := vertex.edges.push target }).map
          fun vertex => { value := image vertex.value, edges := vertex.edges } := by
    refine Array.ext_getElem? fun position => ?_
    rw [Array.getElem?_map, Array.getElem?_modify, Array.getElem?_modify, mapValues,
      Array.getElem?_map]
    split
    · rw [Option.map_map, Option.map_map]
      rfl
    · rfl
  simp only [addEdge, size_mapValues, vertices]
  split
  · rfl
  · split <;> rfl

end Graph

namespace Session

/-- The same edit with the image of its value. -/
def Edit.map (image : α → β) : Edit α → Edit β
  | .addVertex value => .addVertex (image value)
  | .addEdge source target => .addEdge source target
  | .detect => .detect

/-- The same act with the image of its value. -/
def Act.map (image : α → β) : Act α → Act β
  | .edit change => .edit (change.map image)
  | .save => .save
  | .restore position => .restore position

/-- An edit with another label leads to the graph with another label. -/
theorem Edit.onGraph_mapValues (image : α → β) (edit : Edit α) (graph : Graph α) :
    (edit.map image).onGraph (graph.mapValues image) = (edit.onGraph graph).mapValues image := by
  cases edit with
  | addVertex value => exact graph.addVertex_mapValues image value
  | addEdge source target =>
      exact congrArg Prod.snd (graph.addEdge_mapValues image source target)
  | detect => exact graph.graph_detect_mapValues image

/-- A session whose values are replaced leads to the graph whose values are replaced, with the
marks that all the runs in between have left. -/
theorem graphAfter_map (image : α → β) (acts : List (Act α)) :
    graphAfter (acts.map (Act.map image)) = (graphAfter acts).mapValues image := by
  have start : Paired (fun graph relabelled => relabelled = Graph.mapValues image graph)
      { current := (Graph.empty : Graph α) } { current := (Graph.empty : Graph β) } :=
    ⟨(Graph.empty_mapValues image).symm, .nil⟩
  have keeps : ∀ (edit : Edit α) (graph : Graph α) (relabelled : Graph β),
      relabelled = graph.mapValues image →
        (edit.map image).onGraph relabelled = (edit.onGraph graph).mapValues image :=
    fun edit graph _ same => same ▸ edit.onGraph_mapValues image graph
  have acting : ∀ (session : Session (Graph β)) (act : Act α),
      session.perform Edit.onGraph (act.map image) =
        session.perform (fun edit => (edit.map image).onGraph) act := by
    intro session act
    cases act <;> rfl
  have together := (start.run keeps acts).current
  rw [graphAfter, run, List.foldl_map, funext₂ acting]
  exact together

end Session

/-- Identity is by vertex and not by value. Whatever function the values of a graph are replaced
by, be it one that takes different values to the same image, the detection reports the same
components in the same order, with the images of the members in the order of the members and
with the same marks of loops. It leaves the same graph but for the values, so that every vertex
has the same index and the same lowlink, and it tells the same in its journal. The graph with
other values is the one that a session with other values leads to, whatever was done in it. -/
theorem Graph.detect_mapValues (graph : Graph α) (image : α → β) :
    (graph.mapValues image).detect.components = graph.detect.components.map image ∧
      (graph.mapValues image).detect.graph = graph.detect.graph.mapValues image ∧
      (∀ vertex,
        (graph.mapValues image).detect.graph.index? vertex = graph.detect.graph.index? vertex ∧
        (graph.mapValues image).detect.graph.lowlink? vertex =
          graph.detect.graph.lowlink? vertex) ∧
      (graph.mapValues image).detect.journal = graph.detect.journal ∧
      ∀ acts, Session.graphAfter acts = graph →
        Session.graphAfter (acts.map (Session.Act.map image)) = graph.mapValues image := by
  have marks : ∀ vertex, (graph.mapValues image).detect.graph.mark? vertex =
      graph.detect.graph.mark? vertex := (graph.sameShape_mapValues image).mark?_detect_eq
  refine ⟨graph.components_detect_mapValues image, graph.graph_detect_mapValues image,
    fun vertex => ?_, graph.journal_detect_mapValues image, ?_⟩
  · simp only [index?, lowlink?, marks, and_self]
  · rintro acts rfl
    exact Session.graphAfter_map image acts

-- A single label does not merge the ring with the loop that it leads to.
example : (Graph.ringAndLoop.mapValues fun _ => 'x').detect.components.toList.map
    Component.members = [['x'], ['x', 'x'], ['x']] := by decide +kernel

end GraphsAndCaches
