import GraphsAndCaches.Proofs.Graph.ReportOrder
import Mathlib.Data.List.Nodup

/-!
# The components decide which vertices are on cycles

A vertex is on a cycle when a closed walk of at least one edge leads through it. The first
edge of such a walk leads to a vertex of the same component. Either this is another vertex,
and the component has two members, or it is the vertex itself. In the latter case the
component may be larger, and then it is a cycle anyway, or the vertex is alone, and then the
component is marked as a self-loop when it is closed.

So the lists of cycles, self-loops and independent components, which are made from the
reported components alone, tell of the walks of the graph.
-/

namespace GraphsAndCaches

universe u
variable {α : Type u} {graph : Graph α}

namespace Graph

variable {vertex other : VertexId}

/-- A closed walk of at least one edge leads through the vertex. -/
def OnCycle (graph : Graph α) (vertex : VertexId) : Prop :=
  Relation.TransGen graph.Edge vertex vertex

/-- No closed walk leads through any vertex. -/
def Acyclic (graph : Graph α) : Prop := ∀ vertex, ¬ graph.OnCycle vertex

/-- The only one of some vertices has an edge to itself. -/
def LoneLoop (graph : Graph α) (members : List VertexId) : Prop :=
  ∃ vertex, members = [vertex] ∧ graph.Edge vertex vertex

/-- A closed walk leaves its vertex along some edge, and comes back. -/
theorem onCycle_iff :
    graph.OnCycle vertex ↔ ∃ next, graph.Edge vertex next ∧ graph.Reaches next vertex :=
  Relation.TransGen.head'_iff

/-- Only a vertex of the graph is on a cycle. -/
theorem OnCycle.lt_size (onCycle : graph.OnCycle vertex) : vertex < graph.size := by
  obtain ⟨next, edge, _⟩ := onCycle_iff.mp onCycle
  exact edge.source_lt_size

/-- Two different vertices that reach one another are on a cycle. -/
theorem Mutual.onCycle (together : graph.Mutual vertex other) (different : other ≠ vertex) :
    graph.OnCycle vertex := by
  have forth : Relation.TransGen graph.Edge vertex other :=
    (Relation.reflTransGen_iff_eq_or_transGen.mp together.1).resolve_left different
  exact forth.trans_left together.2

end Graph

/-! ## The mark of self-loops -/

namespace Search

/-- The closed components that are marked are the vertices alone with an edge to themselves. -/
def Flagged (graph : Graph α) (search : Search) : Prop :=
  ∀ component ∈ search.progress.closed.toList,
    component.selfLoop = true ↔ graph.LoneLoop component.members

/-- The mark that a component gets tells whether its root is alone and has such an edge. -/
theorem mark_iff_loneLoop (above : List VertexId) (root : VertexId) :
    ((above ++ [root]).length == 1 && graph.hasSelfLoop root) = true ↔
      graph.LoneLoop (above ++ [root]) := by
  rw [Bool.and_eq_true, beq_iff_eq, Graph.hasSelfLoop_iff]
  constructor
  · rintro ⟨alone, edge⟩
    have nothing : above = [] := by simpa using alone
    exact ⟨root, by rw [nothing, List.nil_append], edge⟩
  · rintro ⟨vertex, alone, edge⟩
    have same : root = vertex := by simpa using congrArg List.getLast? alone
    exact ⟨by rw [alone, List.length_singleton], same ▸ edge⟩

/-- Every turn marks the component that it closes, if it closes one. -/
theorem Flagged.turn {before after : Search} (flagged : Flagged graph before)
    (coherent : Coherent graph before) (turn : Turn graph before after) :
    Flagged graph after := by
  intro component member
  rcases turn.closed_cases coherent member with old | ⟨above, root, _, _, rfl⟩
  · exact flagged component old
  · exact mark_iff_loneLoop above root

end Search

namespace Graph

variable {position : Nat} {component : Component α} {vertex : VertexId}

theorem flagged_traverse (wellFormed : graph.WellFormed) :
    Search.Flagged graph { progress := graph.traverse, frames := [] } := by
  have start : Search.Flagged graph { progress := .start graph.size, frames := [] } :=
    fun component member => nomatch member
  exact traverse_invariant wellFormed
    (fun _ _ coherent turn flagged => flagged.turn coherent turn)
    (fun _ _ _ _ _ flagged => flagged) start

/-! ## Reported components -/

/-- A reported component has as many members as vertices were popped for it, and is marked
when they are a vertex alone with an edge to itself. -/
theorem popped_of_reported (wellFormed : graph.WellFormed)
    (reported : graph.detect.components.toList[position]? = some component) :
    ∃ members, graph.popped[position]? = some members ∧ members ∈ graph.popped ∧
      component.size = members.length ∧
      (component.selfLoop = true ↔ graph.LoneLoop members) := by
  have listed : graph.detect.components.toList =
      graph.traverse.closed.toList.map graph.valuesOf := rfl
  rw [listed, List.getElem?_map, Option.map_eq_some_iff] at reported
  obtain ⟨closed, found, rfl⟩ := reported
  have member : closed ∈ graph.traverse.closed.toList := List.mem_of_getElem? found
  have popped : closed.members ∈ graph.popped := List.mem_map_of_mem member
  have valued := map_some_valuesOf closed fun vertex inside =>
    lt_size_of_mem_popped wellFormed popped inside
  refine ⟨closed.members, ?_, popped, ?_, flagged_traverse wellFormed closed member⟩
  · rw [Graph.popped, List.getElem?_map, found, Option.map_some]
  · simpa [Component.size] using congrArg List.length valued

/-- The component at a position where a vertex is reported. -/
theorem ReportedAt.exists_component (wellFormed : graph.WellFormed)
    (reported : graph.ReportedAt position vertex) :
    ∃ component, graph.detect.components.toList[position]? = some component := by
  obtain ⟨members, found, _⟩ := reported
  have paired := component_at wellFormed position
  rw [found, Option.map_some, Option.map_eq_some_iff] at paired
  obtain ⟨component, reportedThere, _⟩ := paired
  exact ⟨component, reportedThere⟩

/-! ## Walks within the popped lists -/

section Popped

variable {members : List VertexId} {other : VertexId}

/-- A member is alone, or it has company that it reaches and is reached from. -/
theorem alone_or_mutual (wellFormed : graph.WellFormed) (listed : members ∈ graph.popped)
    (member : vertex ∈ members) :
    members = [vertex] ∨
      1 < members.length ∧ ∃ other ∈ members, other ≠ vertex ∧ graph.Mutual vertex other := by
  by_cases alone : members = [vertex]
  · exact .inl alone
  · right
    have nodup := nodup_of_mem_popped wellFormed listed
    obtain ⟨other, otherIn, different⟩ :=
      ((List.Nodup.ne_singleton_iff nodup vertex).mp alone).resolve_left
        (List.ne_nil_of_mem member)
    have several : 1 < members.length := by
      by_contra few
      have occupied := List.length_pos_of_mem member
      obtain ⟨only, rfl⟩ := List.length_eq_one_iff.mp (by omega : members.length = 1)
      apply different
      rw [List.mem_singleton.mp otherIn, List.mem_singleton.mp member]
    have together := popped_together_iff wellFormed
      (lt_size_of_mem_popped wellFormed listed member)
      (lt_size_of_mem_popped wellFormed listed otherIn)
    exact ⟨several, other, otherIn, different, together.mp ⟨members, listed, member, otherIn⟩⟩

/-- A vertex is on a cycle exactly when it was popped with another one, or alone and with an
edge to itself. -/
theorem onCycle_iff_of_popped (wellFormed : graph.WellFormed) (listed : members ∈ graph.popped)
    (member : vertex ∈ members) :
    graph.OnCycle vertex ↔ 1 < members.length ∨ graph.LoneLoop members := by
  rcases alone_or_mutual wellFormed listed member with
    rfl | ⟨several, other, _, different, together⟩
  · constructor
    · intro onCycle
      obtain ⟨next, edge, back⟩ := onCycle_iff.mp onCycle
      have nextIn : next ∈ [vertex] := mem_popped_of_mutual wellFormed listed member
        (wellFormed vertex next edge) ⟨.ofEdge edge, back⟩
      rw [List.mem_singleton.mp nextIn] at edge
      exact .inr ⟨vertex, rfl, edge⟩
    · rintro (several | ⟨only, alone, edge⟩)
      · exact absurd several (Nat.lt_irrefl 1)
      · obtain rfl : vertex = only := List.singleton_inj.mp alone
        exact .single edge
  · exact iff_of_true (together.onCycle different) (.inl several)

end Popped

/-! ## The lists that are made from the report -/

theorem isCycle_iff {component : Component α} : component.isCycle = true ↔ 1 < component.size :=
  decide_eq_true_iff

/-- The component of a vertex tells whether the vertex is on a cycle. -/
theorem ReportedAt.onCycle_iff (wellFormed : graph.WellFormed)
    (reported : graph.ReportedAt position vertex)
    (found : graph.detect.components.toList[position]? = some component) :
    graph.OnCycle vertex ↔ component.isCycle = true ∨ component.selfLoop = true := by
  obtain ⟨members, there, listed, size_eq, marked_iff⟩ := popped_of_reported wellFormed found
  obtain ⟨others, foundThere, member⟩ := reported
  obtain rfl : members = others := Option.some.inj (there.symm.trans foundThere)
  rw [isCycle_iff, size_eq, marked_iff]
  exact onCycle_iff_of_popped wellFormed listed member

/-- A reported component is a cycle exactly when two different vertices of it reach one
another. -/
theorem isCycle_iff_exists_mutual (wellFormed : graph.WellFormed)
    (found : graph.detect.components.toList[position]? = some component) :
    component.isCycle = true ↔ ∃ left right, graph.ReportedAt position left ∧
      graph.ReportedAt position right ∧ left ≠ right ∧ graph.Mutual left right := by
  obtain ⟨members, there, listed, size_eq, _⟩ := popped_of_reported wellFormed found
  rw [isCycle_iff, size_eq]
  constructor
  · intro several
    obtain ⟨first, member⟩ := List.exists_mem_of_length_pos (Nat.lt_of_succ_lt several)
    rcases alone_or_mutual wellFormed listed member with
      rfl | ⟨_, other, otherIn, different, together⟩
    · exact absurd several (Nat.lt_irrefl 1)
    · exact ⟨first, other, ⟨members, there, member⟩, ⟨members, there, otherIn⟩,
        different.symm, together⟩
  · rintro ⟨left, right, ⟨_, leftThere, leftIn⟩, ⟨_, rightThere, rightIn⟩, different, _⟩
    obtain rfl := Option.some.inj (there.symm.trans leftThere)
    obtain rfl := Option.some.inj (there.symm.trans rightThere)
    rcases alone_or_mutual wellFormed listed leftIn with rfl | ⟨several, _⟩
    · exact absurd (List.mem_singleton.mp rightIn).symm different
    · exact several

/-- A reported component is marked as a self-loop exactly when it is one vertex with an edge
to itself. -/
theorem selfLoop_iff_exists_edge (wellFormed : graph.WellFormed)
    (found : graph.detect.components.toList[position]? = some component) :
    component.selfLoop = true ↔
      ∃ vertex, graph.popped[position]? = some [vertex] ∧ graph.Edge vertex vertex := by
  obtain ⟨members, there, _, _, marked_iff⟩ := popped_of_reported wellFormed found
  simp only [marked_iff, LoneLoop, there, Option.some.injEq]

/-- A marked component has one member. -/
theorem isIndependent_of_selfLoop (wellFormed : graph.WellFormed)
    (reported : component ∈ graph.detect.components.toList) (marked : component.selfLoop = true) :
    component.isIndependent = true := by
  obtain ⟨position, found⟩ := List.getElem?_of_mem reported
  obtain ⟨members, _, _, size_eq, marked_iff⟩ := popped_of_reported wellFormed found
  obtain ⟨vertex, alone, _⟩ := marked_iff.mp marked
  rw [alone, List.length_singleton] at size_eq
  simp [Component.isIndependent, Component.isCycle, size_eq]

/-- The self-loops are among the independent components, in the same order. -/
theorem selfLoops_sublist_independent (wellFormed : graph.WellFormed) :
    graph.detect.components.selfLoops.Sublist graph.detect.components.independent := by
  have same : graph.detect.components.selfLoops =
      graph.detect.components.independent.filter (·.selfLoop) := by
    rw [Components.selfLoops, Components.independent, List.filter_filter]
    apply List.filter_congr
    intro component reported
    cases marked : component.selfLoop with
    | false => rfl
    | true => rw [isIndependent_of_selfLoop wellFormed reported marked, Bool.and_self]
  rw [same]
  exact List.filter_sublist

/-- No vertex is on a cycle exactly when no component is a cycle and none is marked. -/
theorem acyclic_iff (wellFormed : graph.WellFormed) :
    graph.Acyclic ↔
      graph.detect.components.hasCycles = false ∧ graph.detect.components.selfLoops = [] := by
  have neither_iff : (graph.detect.components.hasCycles = false ∧
      graph.detect.components.selfLoops = []) ↔
        ∀ component ∈ graph.detect.components.toList,
          ¬ (component.isCycle = true ∨ component.selfLoop = true) := by
    simp only [Components.hasCycles_eq_false_iff, Components.cycles, Components.selfLoops,
      List.filter_eq_nil_iff, not_or, imp_and, forall_and]
  rw [neither_iff]
  constructor
  · intro acyclic component reported classified
    obtain ⟨position, found⟩ := List.getElem?_of_mem reported
    obtain ⟨members, there, listed, _⟩ := popped_of_reported wellFormed found
    obtain ⟨vertex, member⟩ := List.exists_mem_of_ne_nil members
      (ne_nil_of_mem_popped wellFormed listed)
    have reportedThere : graph.ReportedAt position vertex := ⟨members, there, member⟩
    exact acyclic vertex ((reportedThere.onCycle_iff wellFormed found).mpr classified)
  · intro neither vertex onCycle
    obtain ⟨position, reported⟩ := exists_reportedAt wellFormed onCycle.lt_size
    obtain ⟨component, found⟩ := reported.exists_component wellFormed
    exact neither component (List.mem_of_getElem? found)
      ((reported.onCycle_iff wellFormed found).mp onCycle)

/-- The detection decides which vertices are on cycles. Every vertex is reported in one
component, and is on a cycle exactly when that is a cycle or marked as a self-loop; so the
graph is acyclic exactly when neither is reported. The cycles are the components with two
different vertices that reach one another. The self-loops are the components of one vertex
with an edge to itself, and are among the independent components. Each component is either a
cycle or independent, and both lists keep the order of the report. -/
theorem detect_decides_cyclicity (built : graph.Built) :
    (∀ position : Nat,
      (graph.detect.components.toList[position]?.map fun component =>
          component.members.map some) =
        graph.popped[position]?.map fun members => members.map graph.value?) ∧
      (∀ vertex < graph.size, ∃! position, graph.ReportedAt position vertex) ∧
      (∀ position vertex, graph.ReportedAt position vertex →
        ∃ component, graph.detect.components.toList[position]? = some component ∧
          (graph.OnCycle vertex ↔ component.isCycle = true ∨ component.selfLoop = true)) ∧
      (graph.Acyclic ↔
        graph.detect.components.hasCycles = false ∧ graph.detect.components.selfLoops = []) ∧
      (∀ (position : Nat) component,
        graph.detect.components.toList[position]? = some component →
          (component ∈ graph.detect.components.cycles ↔
            ∃ left right, graph.ReportedAt position left ∧ graph.ReportedAt position right ∧
              left ≠ right ∧ graph.Mutual left right) ∧
          (component ∈ graph.detect.components.selfLoops ↔
            ∃ vertex, graph.popped[position]? = some [vertex] ∧ graph.Edge vertex vertex)) ∧
      graph.detect.components.selfLoops.Sublist graph.detect.components.independent ∧
      graph.detect.components.cycles.Sublist graph.detect.components.toList ∧
      graph.detect.components.independent.Sublist graph.detect.components.toList ∧
      (∀ component ∈ graph.detect.components.cycles,
        component ∉ graph.detect.components.independent) ∧
      (graph.detect.components.cycles ++ graph.detect.components.independent).Perm
        graph.detect.components.toList := by
  have wellFormed : graph.WellFormed := built.wellFormed
  refine ⟨component_at wellFormed, ?_, ?_, acyclic_iff wellFormed, ?_,
    selfLoops_sublist_independent wellFormed, List.filter_sublist, List.filter_sublist, ?_,
    List.filter_append_perm _ _⟩
  · intro vertex inside
    obtain ⟨position, reported⟩ := exists_reportedAt wellFormed inside
    exact ⟨position, reported, fun other again => again.unique wellFormed reported⟩
  · intro position vertex reported
    obtain ⟨component, found⟩ := reported.exists_component wellFormed
    exact ⟨component, found, reported.onCycle_iff wellFormed found⟩
  · intro position component found
    have listed := List.mem_of_getElem? found
    constructor
    · rw [Components.cycles, List.mem_filter, and_iff_right listed]
      exact isCycle_iff_exists_mutual wellFormed found
    · rw [Components.selfLoops, List.mem_filter, and_iff_right listed]
      exact selfLoop_iff_exists_edge wellFormed found
  · intro component isCycle isIndependent
    have cyclic := (List.mem_filter.mp isCycle).2
    have alone := (List.mem_filter.mp isIndependent).2
    rw [Component.isIndependent, cyclic] at alone
    exact absurd alone (by decide)

/-- In the sample graph the loop and the ring are on cycles. The vertex that leads into the
ring is not, although its component has one member only, like that of the loop. -/
theorem ringAndLoop_cyclicity :
    ringAndLoop.Built ∧ ringAndLoop.popped = [[2], [1, 0], [3]] ∧
      ringAndLoop.OnCycle 2 ∧ ringAndLoop.OnCycle 0 ∧ ¬ ringAndLoop.OnCycle 3 := by
  have popped : ringAndLoop.popped = [[2], [1, 0], [3]] := by decide +kernel
  have classes : (ringAndLoop.detect.components.toList.map fun component =>
      component.isCycle || component.selfLoop) = [true, true, false] := by decide +kernel
  have decided : ∀ (position : Nat) members, [[2], [1, 0], [3]][position]? = some members →
      ∀ vertex ∈ members, ∀ answer, [true, true, false][position]? = some answer →
        (ringAndLoop.OnCycle vertex ↔ answer = true) := by
    intro position members there vertex member answer answered
    obtain ⟨component, found, onCycle_iff⟩ :=
      (detect_decides_cyclicity built_ringAndLoop).2.2.1 position vertex
        ⟨members, popped ▸ there, member⟩
    rw [← classes, List.getElem?_map, found] at answered
    rw [onCycle_iff, ← Option.some.inj answered, Bool.or_eq_true]
  refine ⟨built_ringAndLoop, popped, ?_, ?_, ?_⟩
  · exact (decided 0 [2] rfl 2 (by decide) true rfl).mpr rfl
  · exact (decided 1 [1, 0] rfl 0 (by decide) true rfl).mpr rfl
  · exact fun onCycle => nomatch (decided 2 [3] rfl 3 (by decide) false rfl).mp onCycle

end Graph

end GraphsAndCaches
