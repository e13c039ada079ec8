import GraphsAndCaches.Proofs.Graph.Drafts
import GraphsAndCaches.Proofs.Graph.Preorder

/-!
# What runs leave on a graph

A run of the detection leaves its marks on the vertices, and edits that follow do not touch
them. So the marks on a graph are at any time those of a complete run over the vertices that
there were then. Each of these has an index of its own, the indices have no gaps, a lowlink
is never above its index, and nothing is left on the stack. A vertex that was added since
has no mark at all. `Extent` keeps the two numbers that tell these vertices apart.

The check of a graph looks at its edges and at its marks, and finds no defect exactly when
all of them are in order. So it succeeds at any time between two runs.
-/

namespace GraphsAndCaches

universe u
variable {α : Type u} {graph : Graph α}

/-! ## The check of a graph -/

/-- A failure is no success. -/
theorem error_ne_ok {ε β : Type} {defect : ε} {value : β} :
    (Except.error defect : Except ε β) ≠ .ok value := by
  intro same
  cases same

/-- To check items one after another succeeds exactly when each of them passes. -/
theorem forM_eq_ok_iff {ε β : Type} {check : β → Except ε Unit} {items : List β} :
    items.forM check = .ok () ↔ ∀ item ∈ items, check item = .ok () := by
  induction items with
  | nil => exact iff_of_true rfl (List.forall_mem_nil _)
  | cons item rest inductionHypothesis =>
      rw [List.forall_mem_cons, ← inductionHypothesis]
      change (check item >>= fun _ => rest.forM check) = .ok () ↔ _
      cases check item with
      | error defect => exact iff_of_false error_ne_ok fun both => error_ne_ok both.1
      | ok done => exact (and_iff_right rfl).symm

namespace Graph

/-- A vertex passes when its edges lead to vertices of the graph and its mark, if it has one,
is that of a vertex that was left. -/
theorem checkVertex_eq_ok_iff {vertex : VertexId} :
    graph.checkVertex vertex = .ok () ↔
      (∀ target, graph.Edge vertex target → target < graph.size) ∧
        ∀ mark, graph.mark? vertex = some mark →
          mark.onStack = false ∧ mark.lowlink ≤ mark.index := by
  have noneMissing : ((graph.edges? vertex).getD #[]).find? (graph.size ≤ ·) = none ↔
      ∀ target, graph.Edge vertex target → target < graph.size := by
    simp [Edge, targets]
  rw [checkVertex, ← noneMissing]
  cases ((graph.edges? vertex).getD #[]).find? (graph.size ≤ ·) with
  | some target => exact iff_of_false error_ne_ok fun both => Option.some_ne_none target both.1
  | none =>
      rw [and_iff_right rfl]
      cases graph.mark? vertex with
      | none => exact iff_of_true rfl (by simp)
      | some mark =>
          obtain ⟨index, lowlink, onStack⟩ := mark
          simp only [Option.some.injEq, forall_eq']
          cases onStack with
          | true => exact iff_of_false error_ne_ok fun both => Bool.false_ne_true both.1.symm
          | false =>
              rw [and_iff_right rfl, ← Nat.not_lt]
              by_cases above : index < lowlink
              · simp only [Bool.false_eq_true, if_false, if_pos above]
                exact iff_of_false error_ne_ok fun below => below above
              · simp only [Bool.false_eq_true, if_false, if_neg above]
                exact iff_of_true rfl above

/-- A graph passes its check when all of its vertices do. -/
theorem check_eq_ok_iff :
    graph.check = .ok () ↔ ∀ vertex < graph.size, graph.checkVertex vertex = .ok () := by
  rw [check, forM_eq_ok_iff]
  exact forall_congr' fun vertex => imp_congr_left mem_vertexIds

end Graph

/-! ## Marks between runs -/

/-- How many vertices a graph has, and how many it had when the detection ran last. -/
structure Extent where
  vertices : Nat := 0
  visited : Nat := 0

namespace Graph

/-- What there is on a graph of this extent when no run is under way. -/
structure AtRest (graph : Graph α) (extent : Extent) : Prop where
  size : graph.size = extent.vertices
  visited_le : extent.visited ≤ extent.vertices
  /-- Every edge leads to a vertex of the graph. -/
  wellFormed : graph.WellFormed
  /-- No vertex is marked as being on the stack. -/
  released : ∀ vertex mark, graph.mark? vertex = some mark → mark.onStack = false
  /-- The last run has met the vertices that there were. -/
  marked : ∀ vertex < extent.visited, ∃ index lowlink,
    graph.index? vertex = some index ∧ graph.lowlink? vertex = some lowlink ∧ lowlink ≤ index
  /-- It has numbered them from zero. -/
  numbered : ((List.range extent.visited).map graph.index?).Perm
    ((List.range extent.visited).map some)
  /-- The other vertices were added since. -/
  unmarked : ∀ vertex, extent.visited ≤ vertex →
    graph.index? vertex = none ∧ graph.lowlink? vertex = none

namespace AtRest

variable {extent : Extent}

/-- Nothing that the check looks for is wrong with a graph at rest. -/
theorem check_eq (atRest : graph.AtRest extent) : graph.check = .ok () := by
  refine check_eq_ok_iff.mpr fun vertex _ => checkVertex_eq_ok_iff.mpr ⟨?_, ?_⟩
  · exact atRest.wellFormed vertex
  · intro mark found
    have indexed : graph.index? vertex = some mark.index := congrArg (Option.map Mark.index) found
    have lowlinked : graph.lowlink? vertex = some mark.lowlink :=
      congrArg (Option.map Mark.lowlink) found
    refine ⟨atRest.released vertex mark found, ?_⟩
    by_cases visited : vertex < extent.visited
    · obtain ⟨index, lowlink, sameIndex, sameLowlink, below⟩ := atRest.marked vertex visited
      obtain rfl : mark.index = index := Option.some.inj (indexed.symm.trans sameIndex)
      obtain rfl : mark.lowlink = lowlink := Option.some.inj (lowlinked.symm.trans sameLowlink)
      exact below
    · have none := (atRest.unmarked vertex (Nat.le_of_not_lt visited)).1
      exact nomatch indexed.symm.trans none

theorem empty : (Graph.empty : Graph α).AtRest {} where
  size := rfl
  visited_le := Nat.le_refl 0
  wellFormed := Built.empty.wellFormed
  released _ _ found := nomatch found
  marked vertex before := absurd before (Nat.not_lt_zero vertex)
  numbered := List.Perm.refl []
  unmarked _ _ := ⟨rfl, rfl⟩

/-- A new vertex has no mark, and no other vertex loses its own. -/
theorem addVertex (atRest : graph.AtRest extent) (built : graph.Built) (value : α) :
    (graph.addVertex value).2.AtRest { extent with vertices := extent.vertices + 1 } where
  size := (size_addVertex graph value).trans (congrArg (· + 1) atRest.size)
  visited_le := Nat.le_succ_of_le atRest.visited_le
  wellFormed := (Built.addVertex value built).wellFormed
  released := atRest.released
  marked := atRest.marked
  numbered := atRest.numbered
  unmarked := atRest.unmarked

/-- A new edge does not reach the marks. -/
theorem addEdge {after : Graph α} {source target : VertexId} (atRest : graph.AtRest extent)
    (built : graph.Built) (accepted : graph.addEdge source target = (.ok (), after)) :
    after.AtRest extent := by
  have wellFormed := (built.addEdge accepted).wellFormed
  have size := (size_of_addEdge accepted).trans atRest.size
  obtain ⟨-, -, rfl⟩ := eq_of_addEdge accepted
  exact { atRest with size, wellFormed }

/-- A run marks all vertices anew. In the end it has met them all, and nothing is left on its
stack. -/
theorem detect (built : graph.Built) :
    graph.detect.graph.AtRest { vertices := graph.size, visited := graph.size } := by
  have wellFormed : graph.WellFormed := built.wellFormed
  obtain ⟨coherent, allMet⟩ := traverse_complete wellFormed
  have marks : ∀ vertex, graph.detect.graph.mark? vertex = graph.traverse.mark? vertex :=
    fun _ => rfl
  refine
    { size := rfl
      visited_le := Nat.le_refl _
      wellFormed
      released := ?released
      marked := ?marked
      numbered := ?numbered
      unmarked := ?unmarked }
  case released =>
    intro vertex mark found
    rw [marks] at found
    have notOpen : ¬ graph.traverse.Open vertex := coherent.not_open rfl vertex
    rw [Progress.Open, found, Option.any_some, Bool.not_eq_true] at notOpen
    exact notOpen
  case marked =>
    intro vertex inside
    have met := allMet vertex inside
    obtain ⟨mark, found⟩ := Option.isSome_iff_exists.mp met
    have below := coherent.orderly.lowlink_le_index vertex met
    simp only [Progress.lowlink, Progress.index, found, Option.elim_some] at below
    refine ⟨mark.index, mark.lowlink, ?_, ?_, below⟩
    · rw [index?, marks, found, Option.map_some]
    · rw [lowlink?, marks, found, Option.map_some]
  case numbered => exact indices_perm wellFormed
  case unmarked =>
    intro vertex outside
    have unmet : ¬ graph.traverse.Met vertex := fun met =>
      absurd (coherent.lt_size_of_met met) (Nat.not_lt_of_le outside)
    have unmarked : graph.detect.graph.mark? vertex = none := by
      rwa [Progress.Met, Bool.not_eq_true, Option.isSome_eq_false_iff,
        Option.isNone_iff_eq_none] at unmet
    rw [index?, lowlink?, unmarked]
    exact ⟨rfl, rfl⟩

end AtRest

end Graph

namespace Session

/-- Edges do not count, whether they are accepted or rejected. -/
def Edit.onExtent (edit : Edit α) (extent : Extent) : Extent :=
  match edit with
  | .addVertex _ => { extent with vertices := extent.vertices + 1 }
  | .addEdge _ _ => extent
  | .detect => { extent with visited := extent.vertices }

/-- The extent of the graph that a session has led to. -/
def extentAfter (acts : List (Act α)) : Extent :=
  (run Edit.onExtent { current := {} } acts).current

/-- An edit leaves a built graph at rest, if it was so before. -/
theorem Edit.keeps_atRest (edit : Edit α) (graph : Graph α) (extent : Extent)
    (known : graph.Built ∧ graph.AtRest extent) :
    (edit.onGraph graph).Built ∧ (edit.onGraph graph).AtRest (edit.onExtent extent) := by
  obtain ⟨built, atRest⟩ := known
  cases edit with
  | addVertex value => exact ⟨.addVertex value built, atRest.addVertex built value⟩
  | addEdge source target =>
      simp only [onGraph, onExtent]
      rcases answered : graph.addEdge source target with ⟨⟨refused⟩ | ⟨⟩, after⟩
      · obtain rfl := Graph.eq_of_addEdge_error answered
        exact ⟨built, atRest⟩
      · exact ⟨.addEdge built answered, atRest.addEdge built answered⟩
  | detect =>
      have left := Graph.AtRest.detect built
      rw [atRest.size] at left
      exact ⟨.detect built, left⟩

/-- Whenever no run is under way, a graph passes its check. Its edges lead to its vertices,
the vertices that were there at the last run, which are the first ones, have the indices from
zero on and lowlinks that are no greater, none of them is marked as being on the stack, and
the vertices that were added since have no marks. This is so after any number of additions,
accepted or rejected, and of runs, in whatever order, and of copies that are gone back to. -/
theorem graphAfter_atRest (acts : List (Act α)) :
    (graphAfter acts).check = .ok () ∧ (graphAfter acts).AtRest (extentAfter acts) := by
  have start : Paired (fun graph extent => graph.Built ∧ graph.AtRest extent)
      { current := (Graph.empty : Graph α) } { current := ({} : Extent) } :=
    ⟨⟨.empty, .empty⟩, .nil⟩
  have atRest := (start.run Edit.keeps_atRest acts).current.2
  exact ⟨atRest.check_eq, atRest⟩

-- The copy that is gone back to was visited when it had two vertices.
example : extentAfter rework = { vertices := 3, visited := 2 } := rfl

end Session

end GraphsAndCaches
