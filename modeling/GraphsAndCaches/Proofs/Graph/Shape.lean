import GraphsAndCaches.Proofs.Graph.Work

/-!
# What a traversal depends on

The shape of a graph is the number of its vertices and the targets of the edges of each, in
order. A traversal asks for nothing else: two graphs of one shape are traversed alike, turn
by turn, whatever values their vertices hold and whatever marks earlier runs left on them.
The report of the detection depends on the values as well, but again not on the marks.
-/

namespace GraphsAndCaches

universe u v
variable {α : Type u} {β : Type v}

/-- As many vertices here as there, with the same edges in the same order. -/
structure Graph.SameShape (left : Graph α) (right : Graph β) : Prop where
  size : left.size = right.size
  targets : ∀ vertex, left.targets vertex = right.targets vertex

variable {left : Graph α} {right : Graph β}

namespace Graph.SameShape

theorem target?_eq (same : left.SameShape right) (vertex : VertexId) (position : Nat) :
    left.target? vertex position = right.target? vertex position :=
  target?_congr (same.targets vertex) position

theorem hasSelfLoop_eq (same : left.SameShape right) (vertex : VertexId) :
    left.hasSelfLoop vertex = right.hasSelfLoop vertex :=
  hasSelfLoop_congr (same.targets vertex)

theorem vertexIds_eq (same : left.SameShape right) : left.vertexIds = right.vertexIds := by
  rw [vertexIds, vertexIds, same.size]

theorem turns_eq (same : left.SameShape right) : left.turns = right.turns := by
  have cost : left.cost = right.cost := by
    funext vertex
    rw [Graph.cost, Graph.cost, same.targets]
  rw [Graph.turns_eq, Graph.turns_eq, same.vertexIds_eq, cost]

/-! ## Turn by turn -/

theorem close_eq (same : left.SameShape right) (progress : Progress) (root : VertexId) :
    progress.close left root = progress.close right root := by
  simp only [Progress.close, same.hasSelfLoop_eq]

theorem leave_eq (same : left.SameShape right) (search : Search) (vertex : VertexId) :
    search.leave left vertex = search.leave right vertex := by
  simp only [Search.leave, same.close_eq]

theorem step_eq (same : left.SameShape right) (search : Search) :
    search.step left = search.step right := by
  simp only [Search.step, same.target?_eq, same.leave_eq]

theorem explore_eq (same : left.SameShape right) (turns : Nat) (search : Search) :
    Search.explore left turns search = Search.explore right turns search := by
  induction turns generalizing search with
  | zero => rfl
  | succ turns inductionHypothesis =>
      simp only [Search.explore, same.step_eq, inductionHypothesis]

theorem visit_eq (same : left.SameShape right) (turns : Nat) (progress : Progress)
    (root : VertexId) : left.visit turns progress root = right.visit turns progress root := by
  simp only [visit, same.explore_eq]

/-- Once they are reset, graphs of one shape are alike to a traversal. -/
theorem ofGraph_reset_eq (same : left.SameShape right) :
    Progress.ofGraph left.reset = Progress.ofGraph right.reset := by
  rw [Progress.ofGraph_reset, Progress.ofGraph_reset, same.size]

/-- Graphs of one shape are traversed alike. -/
theorem traverse_eq (same : left.SameShape right) : left.traverse = right.traverse := by
  have visits : left.visit left.turns = right.visit right.turns := by
    funext progress root
    rw [same.visit_eq, same.turns_eq]
  rw [traverse, traverse, visits, same.vertexIds_eq, same.ofGraph_reset_eq]

/-- Graphs of one shape get the same marks. -/
theorem mark?_detect_eq (same : left.SameShape right) (vertex : VertexId) :
    left.detect.graph.mark? vertex = right.detect.graph.mark? vertex := by
  have leftMarks : left.detect.graph.mark? vertex = left.traverse.mark? vertex := rfl
  have rightMarks : right.detect.graph.mark? vertex = right.traverse.mark? vertex := rfl
  rw [leftMarks, rightMarks, same.traverse_eq]

/-- Graphs of one shape with the same values have the same components. -/
theorem components_detect_eq {left right : Graph α} (same : left.SameShape right)
    (values : ∀ vertex, left.value? vertex = right.value? vertex) :
    left.detect.components = right.detect.components := by
  have valuesOf : left.valuesOf = right.valuesOf := by
    funext component
    rw [Graph.valuesOf, Graph.valuesOf, funext values]
  simp only [detect, same.traverse_eq, valuesOf]

end Graph.SameShape

end GraphsAndCaches
