import GraphsAndCaches.Graph.Detection
import Mathlib.Logic.Relation

/-!
# Reachability

A vertex reaches another when a path of edges, possibly empty, leads there. Two
vertices that reach one another belong together, and the classes of this
equivalence are the strongly connected components. Nothing here mentions a
traversal.

`Graph.Built` describes the graphs that exist: those that vertices, accepted
edges and earlier runs of the detection lead to from the empty graph. All edges
of such a graph lead to vertices of the graph, whatever marks the runs left.
-/

namespace GraphsAndCaches.Graph

universe u v
variable {α : Type u} {β : Type v}

/-- The targets of the edges of a vertex in order. What is not a vertex has none. -/
def targets (graph : Graph α) (vertex : VertexId) : List VertexId :=
  ((graph.edges? vertex).getD #[]).toList

/-- Some edge leads from one vertex to the other. -/
def Edge (graph : Graph α) (source target : VertexId) : Prop :=
  target ∈ graph.targets source

instance (graph : Graph α) (source target : VertexId) : Decidable (graph.Edge source target) :=
  inferInstanceAs (Decidable (target ∈ graph.targets source))

/-- A path of any length leads from one vertex to the other. -/
def Reaches (graph : Graph α) : VertexId → VertexId → Prop :=
  Relation.ReflTransGen graph.Edge

/-- Each of the two vertices reaches the other. -/
def Mutual (graph : Graph α) (left right : VertexId) : Prop :=
  graph.Reaches left right ∧ graph.Reaches right left

/-- No edge leads out of the graph. -/
def WellFormed (graph : Graph α) : Prop :=
  ∀ source target, graph.Edge source target → target < graph.size

/-- Graphs that were made by adding vertices and edges. Between the additions the
detection may run any number of times and leave its marks. -/
inductive Built : Graph α → Prop where
  | empty : Built Graph.empty
  | addVertex {graph : Graph α} (value : α) (built : Built graph) :
      Built (graph.addVertex value).2
  | addEdge {graph after : Graph α} {source target : VertexId} (built : Built graph)
      (accepted : graph.addEdge source target = (.ok (), after)) : Built after
  | detect {graph : Graph α} (built : Built graph) : Built graph.detect.graph

/-! ## Edges by position -/

/-- The edge at a position leads to the target at that position. -/
theorem target?_eq (graph : Graph α) (vertex : VertexId) (position : Nat) :
    graph.target? vertex position = (graph.targets vertex)[position]? := by
  simp only [target?, targets, edges?]
  cases graph.vertices[vertex]? <;> simp

/-- So it is a matter of the targets of the vertex. -/
theorem target?_congr {left : Graph α} {right : Graph β} {vertex : VertexId}
    (same : left.targets vertex = right.targets vertex) (position : Nat) :
    left.target? vertex position = right.target? vertex position := by
  rw [target?_eq, target?_eq, same]

/-- There are edges at exactly the positions before the number of targets. -/
theorem target?_eq_none_iff {graph : Graph α} {vertex : VertexId} {position : Nat} :
    graph.target? vertex position = none ↔ (graph.targets vertex).length ≤ position := by
  rw [target?_eq, List.getElem?_eq_none_iff]

/-- What is found at a position is the target of an edge. -/
theorem edge_of_target? {graph : Graph α} {source target : VertexId} {position : Nat}
    (found : graph.target? source position = some target) : graph.Edge source target := by
  rw [target?_eq] at found
  exact List.mem_of_getElem? found

/-- Every edge is found at some position. -/
theorem Edge.exists_target? {graph : Graph α} {source target : VertexId}
    (edge : graph.Edge source target) :
    ∃ position, graph.target? source position = some target := by
  obtain ⟨position, found⟩ := List.getElem?_of_mem edge
  exact ⟨position, (target?_eq graph source position).trans found⟩

/-- Only a vertex of the graph has edges. -/
theorem Edge.source_lt_size {graph : Graph α} {source target : VertexId}
    (edge : graph.Edge source target) : source < graph.size := by
  refine Nat.lt_of_not_le fun outside => ?_
  have absent : graph.vertices[source]? = none := Array.getElem?_eq_none outside
  simp [Edge, targets, edges?, absent] at edge

/-- A self-loop is an edge from a vertex to itself. -/
theorem hasSelfLoop_iff {graph : Graph α} {vertex : VertexId} :
    graph.hasSelfLoop vertex = true ↔ graph.Edge vertex vertex := by
  simp only [hasSelfLoop, Edge, targets]
  cases graph.edges? vertex <;> simp

/-- Loops are a matter of the edges of their vertex. -/
theorem hasSelfLoop_congr {left : Graph α} {right : Graph β} {vertex : VertexId}
    (same : left.targets vertex = right.targets vertex) :
    left.hasSelfLoop vertex = right.hasSelfLoop vertex := by
  rw [Bool.eq_iff_iff, hasSelfLoop_iff, hasSelfLoop_iff, Edge, Edge, same]

/-! ## Paths -/

namespace Reaches

theorem refl (graph : Graph α) (vertex : VertexId) : graph.Reaches vertex vertex :=
  Relation.ReflTransGen.refl

theorem trans {graph : Graph α} {first second third : VertexId}
    (left : graph.Reaches first second) (right : graph.Reaches second third) :
    graph.Reaches first third :=
  Relation.ReflTransGen.trans left right

theorem ofEdge {graph : Graph α} {source target : VertexId}
    (edge : graph.Edge source target) : graph.Reaches source target :=
  Relation.ReflTransGen.single edge

/-- What no edge leaves, no path leaves. -/
theorem closed {graph : Graph α} {inside : VertexId → Prop}
    (step : ∀ source target, inside source → graph.Edge source target → inside target)
    {source target : VertexId} (start : inside source)
    (path : graph.Reaches source target) : inside target := by
  induction path with
  | refl => exact start
  | tail _ edge inductionHypothesis => exact step _ _ inductionHypothesis edge

end Reaches

namespace Mutual

theorem refl (graph : Graph α) (vertex : VertexId) : graph.Mutual vertex vertex :=
  ⟨.refl graph vertex, .refl graph vertex⟩

theorem symm {graph : Graph α} {left right : VertexId}
    (together : graph.Mutual left right) : graph.Mutual right left :=
  ⟨together.2, together.1⟩

theorem trans {graph : Graph α} {first second third : VertexId}
    (left : graph.Mutual first second) (right : graph.Mutual second third) :
    graph.Mutual first third :=
  ⟨left.1.trans right.1, right.2.trans left.2⟩

end Mutual

/-! ## Built graphs are well formed -/

/-- A new vertex has no edges, and the others keep theirs. -/
theorem targets_addVertex (graph : Graph α) (value : α) (vertex : VertexId) :
    (graph.addVertex value).2.targets vertex = graph.targets vertex := by
  simp only [targets, edges?, addVertex, Array.getElem?_push]
  split
  · next new => simp [new]
  · rfl

/-- An accepted edge is the last one of its source, and no other vertex has more
edges than before. -/
theorem targets_of_addEdge {graph after : Graph α} {source target : VertexId}
    (accepted : graph.addEdge source target = (.ok (), after)) (vertex : VertexId) :
    after.targets vertex =
      graph.targets vertex ++ if vertex = source then [target] else [] := by
  obtain ⟨inside, _, rfl⟩ := eq_of_addEdge accepted
  by_cases same : vertex = source
  · subst same
    have stored : graph.vertices[vertex]? = some (graph.vertices[vertex]) :=
      Array.getElem?_eq_getElem inside
    simp [targets, edges?, Array.getElem?_modify, stored]
  · have other : ¬ source = vertex := fun equal => same equal.symm
    simp [targets, edges?, Array.getElem?_modify, same, other]

/-- Every edge of a built graph leads to one of its vertices. Additions are checked
when they are made, and a run of the detection leaves the edges alone. -/
theorem Built.wellFormed {graph : Graph α} (built : graph.Built) : graph.WellFormed := by
  induction built with
  | empty =>
      intro source target edge
      simp [Edge, targets, edges?, Graph.empty] at edge
  | @addVertex graph value _ inductionHypothesis =>
      intro source target edge
      rw [Edge, targets_addVertex] at edge
      rw [size_addVertex]
      exact Nat.lt_succ_of_lt (inductionHypothesis source target edge)
  | @addEdge graph after first last _ accepted inductionHypothesis =>
      intro source target edge
      rw [Edge, targets_of_addEdge accepted, List.mem_append] at edge
      rw [size_of_addEdge accepted]
      rcases edge with old | new
      · exact inductionHypothesis source target old
      · split at new
        · rw [List.mem_singleton.mp new]
          exact ((addEdge_isOk_iff graph first last).mp ⟨after, accepted⟩).2
        · exact absurd new List.not_mem_nil
  | detect _ inductionHypothesis => exact inductionHypothesis

/-- Values added to a built graph lead to a built graph. -/
theorem Built.addVertices {graph : Graph α} (built : graph.Built) (values : List α) :
    (graph.addVertices values).Built := by
  induction values generalizing graph with
  | nil => exact built
  | cons value rest inductionHypothesis => exact inductionHypothesis (.addVertex value built)

/-- What no accepted edge of a list breaks, the list does not break when all of its edges are
accepted. -/
theorem addEdges_keeps {kept : Graph α → Prop} {edges : List (VertexId × VertexId)}
    (step : ∀ edge ∈ edges, ∀ before after : Graph α, kept before →
      before.addEdge edge.1 edge.2 = (.ok (), after) → kept after)
    {graph after : Graph α} (start : kept graph)
    (accepted : graph.addEdges edges = (.ok (), after)) : kept after := by
  induction edges generalizing graph with
  | nil =>
      obtain rfl : graph = after := congrArg Prod.snd accepted
      exact start
  | cons edge rest inductionHypothesis =>
      obtain ⟨source, target⟩ := edge
      rcases first : graph.addEdge source target with ⟨⟨error⟩ | ⟨⟩, next⟩
      · rw [addEdges_cons_of_error first] at accepted
        exact nomatch accepted
      · rw [addEdges_cons_of_ok first] at accepted
        have further := step (source, target) List.mem_cons_self graph next start first
        exact inductionHypothesis
          (fun other member => step other (List.mem_cons_of_mem _ member)) further accepted

/-- Edges that were all accepted lead from a built graph to a built graph. -/
theorem Built.addEdges {graph after : Graph α} (built : graph.Built)
    {edges : List (VertexId × VertexId)} (accepted : graph.addEdges edges = (.ok (), after)) :
    after.Built :=
  addEdges_keeps (fun _ _ _ _ builtBefore added => .addEdge builtBefore added) built accepted

/-- A graph that could be made from lists of values and edges is built. -/
theorem Built.ofEdges {values : List α} {edges : List (VertexId × VertexId)} {graph : Graph α}
    (made : Graph.ofEdges values edges = .ok graph) : graph.Built := by
  unfold Graph.ofEdges at made
  split at made
  · next after accepted =>
      obtain rfl := Except.ok.inj made
      exact .addEdges (.addVertices .empty values) accepted
  · exact nomatch made

end GraphsAndCaches.Graph
