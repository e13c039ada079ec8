import GraphsAndCaches.Proofs.Graph.Lowlink

/-!
# Roots

The members of a component leave the stack from the top, and so in the order of falling
indices. The last of them is the root: the member that was met first. Indices and lowlinks
tell it from the others. A member that was met later has a path to the root, and some edge of
that path is the first one to lead to an index below that of the member. Its target belongs to
the component as well, and so the lowlink of the member is below its index. The lowlink of the
root is the index of some member, and no member has a smaller index than the root.
-/

namespace GraphsAndCaches

universe u
variable {α : Type u} {graph : Graph α}

/-! ## Falling indices -/

namespace Search

open Progress (Continues)

/-- The members of every closed component are listed with falling indices. -/
def Descending (search : Search) : Prop :=
  ∀ component ∈ search.progress.closed.toList, component.members.Pairwise fun upper lower =>
    search.progress.index lower < search.progress.index upper

/-- What was met keeps its index, so its order stays. -/
theorem pairwise_continues {before after : Progress} {members : List VertexId}
    (continues : Continues before after) (met : ∀ vertex ∈ members, before.Met vertex)
    (descending : members.Pairwise fun upper lower => before.index lower < before.index upper) :
    members.Pairwise fun upper lower => after.index lower < after.index upper := by
  refine descending.imp_of_mem fun {upper lower} upperIn lowerIn less => ?_
  rw [continues.index_eq upper (met upper upperIn), continues.index_eq lower (met lower lowerIn)]
  exact less

theorem Descending.turn (wellFormed : graph.WellFormed) {before after : Search}
    (descending : Descending before) (coherent : Coherent graph before)
    (turn : Turn graph before after) : Descending after := by
  have continues := turn.continues wellFormed coherent
  intro component closed
  rcases turn.closed_cases coherent closed with old | ⟨above, root, below, stacked, rfl⟩
  · exact pairwise_continues continues (coherent.met_of_closed old) (descending component old)
  · rw [List.append_cons] at stacked
    have sorted := coherent.orderly.stack_sorted
    rw [stacked, List.pairwise_append] at sorted
    refine pairwise_continues continues (fun vertex member => ?_) sorted.1
    apply coherent.orderly.met_of_mem_stack
    rw [stacked]
    exact List.mem_append_left below member

end Search

namespace Graph

theorem descending_traverse (wellFormed : graph.WellFormed) :
    Search.Descending { progress := graph.traverse, frames := [] } := by
  have start : Search.Descending { progress := .start graph.size, frames := [] } :=
    fun component closed => nomatch closed
  refine traverse_invariant wellFormed
    (fun _ _ coherent turn descending => descending.turn wellFormed coherent turn) ?_ start
  intro root inside between coherent fresh descending component closed
  have marked : root < between.marks.size := coherent.orderly.size_marks ▸ inside
  exact Search.pairwise_continues (.discover marked fresh) (coherent.met_of_closed closed)
    (descending component closed)

/-! ## Lowlinks within a component -/

section Members

variable {members : List VertexId} {vertex root : VertexId}

/-- The indices of the members fall, and the last one has the least. -/
theorem pairwise_of_mem_popped (wellFormed : graph.WellFormed) (listed : members ∈ graph.popped) :
    members.Pairwise fun upper lower =>
      graph.traverse.index lower < graph.traverse.index upper := by
  obtain ⟨component, closed, rfl⟩ := List.mem_map.mp listed
  exact descending_traverse wellFormed component closed

theorem index_root_le (wellFormed : graph.WellFormed) (listed : members ∈ graph.popped)
    (last : members.getLast? = some root) (member : vertex ∈ members) :
    graph.traverse.index root ≤ graph.traverse.index vertex := by
  obtain ⟨others, rfl⟩ := List.getLast?_eq_some_iff.mp last
  have falling := (List.pairwise_append.mp (pairwise_of_mem_popped wellFormed listed)).2.2
  rcases List.mem_append.mp member with upper | lowest
  · exact Nat.le_of_lt (falling vertex upper root List.mem_cons_self)
  · exact Nat.le_of_eq (congrArg _ (List.mem_singleton.mp lowest).symm)

/-- A path back to an earlier vertex of the component passes an edge that stays in the
component and is the first one to lead to an index below that of its start. -/
theorem exists_bound_lt (wellFormed : graph.WellFormed) (inside : vertex < graph.size)
    (together : graph.Mutual vertex root)
    (earlier : graph.traverse.index root < graph.traverse.index vertex) :
    ∃ number ∈ graph.traverse.bounds graph vertex, number < graph.traverse.index vertex := by
  obtain ⟨coherent, allMet⟩ := traverse_complete wellFormed
  have met : graph.traverse.Met vertex := allMet vertex inside
  by_contra none
  have within : ∀ other, graph.Reaches vertex other → graph.Reaches other root →
      graph.ReachesSince graph.traverse.index? (graph.traverse.index vertex) vertex other := by
    intro other path
    induction path with
    | refl => exact fun _ => .refl
    | @tail source target path edge inductionHypothesis =>
        intro back
        have since := inductionHypothesis ((Reaches.ofEdge edge).trans back)
        have targetMet : graph.traverse.Met target := allMet target (wellFormed source target edge)
        have pair : graph.Mutual source target :=
          ⟨.ofEdge edge, (back.trans together.2).trans path⟩
        have late : graph.traverse.index vertex ≤ graph.traverse.index target := by
          by_contra less
          exact none ⟨_, .inr ⟨source, target, since, edge, pair, targetMet.index?_eq⟩,
            Nat.lt_of_not_le less⟩
        exact since.tail ⟨edge, _, targetMet.index?_eq, late⟩
  have since := within root together.1 (.refl graph root)
  exact Nat.not_lt_of_le (Progress.since_of_reachesSince met since).2 earlier

/-- A member that was met after the root has a lowlink below its index. -/
theorem lowlink_lt (wellFormed : graph.WellFormed) (listed : members ∈ graph.popped)
    (last : members.getLast? = some root) (member : vertex ∈ members) (other : vertex ≠ root) :
    graph.traverse.lowlink vertex < graph.traverse.index vertex := by
  have rootIn : root ∈ members := List.mem_of_getLast? last
  have inside := lt_size_of_mem_popped wellFormed listed member
  have rootInside := lt_size_of_mem_popped wellFormed listed rootIn
  have together : graph.Mutual vertex root :=
    (popped_together_iff wellFormed inside rootInside).mp ⟨members, listed, member, rootIn⟩
  obtain ⟨coherent, allMet⟩ := traverse_complete wellFormed
  have distinct : graph.traverse.index root ≠ graph.traverse.index vertex := fun same =>
    other (coherent.orderly.index_injective root vertex (allMet root rootInside)
      (allMet vertex inside) same).symm
  have earlier := Nat.lt_of_le_of_ne (index_root_le wellFormed listed last member) distinct
  obtain ⟨number, bound, less⟩ := exists_bound_lt wellFormed inside together earlier
  exact Nat.lt_of_le_of_lt ((isLeast_lowlink wellFormed inside).2 bound) less

/-- No member has a lowlink below the index of the root, since it is the index of a member. -/
theorem index_root_le_lowlink (wellFormed : graph.WellFormed) (listed : members ∈ graph.popped)
    (last : members.getLast? = some root) (member : vertex ∈ members) :
    graph.traverse.index root ≤ graph.traverse.lowlink vertex := by
  have inside := lt_size_of_mem_popped wellFormed listed member
  obtain ⟨other, together, indexed⟩ := exists_mutual_lowlink wellFormed inside
  obtain ⟨met, same⟩ := Progress.index?_eq_some_iff.mp indexed
  have otherInside : other < graph.size :=
    (traverse_complete wellFormed).1.lt_size_of_met met
  have otherIn := mem_popped_of_mutual wellFormed listed member otherInside together
  rw [← same]
  exact index_root_le wellFormed listed last otherIn

/-- The lowlink of the root is its index. -/
theorem lowlink_root (wellFormed : graph.WellFormed) (listed : members ∈ graph.popped)
    (last : members.getLast? = some root) :
    graph.traverse.lowlink root = graph.traverse.index root := by
  have rootIn : root ∈ members := List.mem_of_getLast? last
  obtain ⟨coherent, allMet⟩ := traverse_complete wellFormed
  have below := coherent.orderly.lowlink_le_index root
    (allMet root (lt_size_of_mem_popped wellFormed listed rootIn))
  exact Nat.le_antisymm below (index_root_le_lowlink wellFormed listed last rootIn)

end Members

/-! ## The report -/

/-- What marks say of the members of a component in the order in which they were popped: their
indices fall, the last one is the root, its lowlink is its index, and the lowlink of each other
member lies below the index of that member but not below that of the root. -/
structure Rooted (indexOf lowlinkOf : VertexId → Option Nat) (members : List VertexId)
    (root : VertexId) : Prop where
  last : members.getLast? = some root
  descending : members.Pairwise fun upper lower => ∃ high low,
    indexOf upper = some high ∧ indexOf lower = some low ∧ low < high
  first : ∀ vertex ∈ members, ∃ first index,
    indexOf root = some first ∧ indexOf vertex = some index ∧ first ≤ index
  lowlink_eq_iff : ∀ vertex ∈ members,
    lowlinkOf vertex = indexOf vertex ↔ members.getLast? = some vertex
  lowlink_lt : ∀ vertex ∈ members, vertex ≠ root → ∃ first low index,
    indexOf root = some first ∧ lowlinkOf vertex = some low ∧ indexOf vertex = some index ∧
      first ≤ low ∧ low < index

/-- The members of a popped list are met. -/
theorem met_of_mem_popped (wellFormed : graph.WellFormed) {members : List VertexId}
    (listed : members ∈ graph.popped) {vertex : VertexId} (member : vertex ∈ members) :
    graph.traverse.Met vertex :=
  (traverse_complete wellFormed).2 vertex (lt_size_of_mem_popped wellFormed listed member)

theorem rooted_of_mem_popped (wellFormed : graph.WellFormed) {members : List VertexId}
    {root : VertexId} (listed : members ∈ graph.popped) (last : members.getLast? = some root) :
    Rooted graph.detect.graph.index? graph.detect.graph.lowlink? members root := by
  have rootIn : root ∈ members := List.mem_of_getLast? last
  have indexed : ∀ vertex ∈ members,
      graph.detect.graph.index? vertex = some (graph.traverse.index vertex) :=
    fun vertex member => (met_of_mem_popped wellFormed listed member).index?_eq
  have lowlinked : ∀ vertex ∈ members,
      graph.detect.graph.lowlink? vertex = some (graph.traverse.lowlink vertex) :=
    fun vertex member => lowlink?_detect (met_of_mem_popped wellFormed listed member)
  refine
    { last
      descending := ?descending
      first := ?first
      lowlink_eq_iff := ?lowlink_eq_iff
      lowlink_lt := ?lowlink_lt }
  case descending =>
    refine (pairwise_of_mem_popped wellFormed listed).imp_of_mem ?_
    intro upper lower upperIn lowerIn less
    exact ⟨_, _, indexed upper upperIn, indexed lower lowerIn, less⟩
  case first =>
    intro vertex member
    exact ⟨_, _, indexed root rootIn, indexed vertex member,
      index_root_le wellFormed listed last member⟩
  case lowlink_eq_iff =>
    intro vertex member
    rw [indexed vertex member, lowlinked vertex member, last, Option.some.injEq, Option.some.injEq]
    constructor
    · intro same
      by_contra different
      have less := Graph.lowlink_lt wellFormed listed last member (Ne.symm different)
      omega
    · rintro rfl
      exact lowlink_root wellFormed listed last
  case lowlink_lt =>
    intro vertex member other
    exact ⟨_, _, _, indexed root rootIn, lowlinked vertex member, indexed vertex member,
      index_root_le_lowlink wellFormed listed last member,
      Graph.lowlink_lt wellFormed listed last member other⟩

/-- The root of a reported component is the value of the vertex that was popped last. -/
theorem root?_eq {component : Component α} {members : List VertexId} {root : VertexId}
    (valued : component.members.map some = members.map graph.value?)
    (last : members.getLast? = some root) : component.root? = graph.value? root := by
  have mapped := congrArg List.getLast? valued
  rw [List.getLast?_map, List.getLast?_map, last, Option.map_some] at mapped
  rw [Component.root?]
  cases found : component.members.getLast? with
  | none => simp [found] at mapped
  | some value => simpa [found] using mapped

/-- Every list of vertices that was popped is reported at its position. The detection meets every
vertex, with the numbers from zero as indices. Every vertex is reported in one component, and in
each the members are listed with falling indices, so that the last one, the root, was met first
of them. It is the only member whose lowlink is its index; the lowlinks of the others lie below
their indices, but not below that of the root. -/
theorem detect_roots (built : graph.Built) :
    (∀ position : Nat,
      (graph.detect.components.toList[position]?.map fun component =>
          component.members.map some) =
        graph.popped[position]?.map fun members => members.map graph.value?) ∧
      (∀ vertex < graph.size, ∃ index, graph.detect.graph.index? vertex = some index) ∧
      (graph.vertexIds.map graph.detect.graph.index?).Perm ((List.range graph.size).map some) ∧
      (∀ vertex < graph.size, ∃! position, graph.ReportedAt position vertex) ∧
      ∀ (position : Nat) (component : Component α),
        graph.detect.components.toList[position]? = some component →
          ∃ members root, graph.popped[position]? = some members ∧
            component.members.map some = members.map graph.value? ∧
            component.root? = graph.value? root ∧
            Rooted graph.detect.graph.index? graph.detect.graph.lowlink? members root := by
  have wellFormed : graph.WellFormed := built.wellFormed
  refine ⟨component_at wellFormed, ?_, indices_perm wellFormed, ?_, ?_⟩
  · intro vertex inside
    exact ⟨_, ((traverse_complete wellFormed).2 vertex inside).index?_eq⟩
  · intro vertex inside
    obtain ⟨position, reported⟩ := exists_reportedAt wellFormed inside
    exact ⟨position, reported, fun other again => again.unique wellFormed reported⟩
  · intro position component reported
    have paired := component_at wellFormed position
    rw [reported, Option.map_some] at paired
    obtain ⟨members, found, valued⟩ := Option.map_eq_some_iff.mp paired.symm
    have listed : members ∈ graph.popped := List.mem_of_getElem? found
    obtain ⟨root, last⟩ := Option.isSome_iff_exists.mp
      (List.getLast?_isSome.mpr (ne_nil_of_mem_popped wellFormed listed))
    exact ⟨members, root, found, valued.symm, root?_eq valued.symm last,
      rooted_of_mem_popped wellFormed listed last⟩

/-- The ring of the sample graph is popped from its second vertex down to its first one, which
alone has its own index for a lowlink. -/
theorem ringAndLoop_roots :
    ringAndLoop.Built ∧ ringAndLoop.popped[1]? = some [1, 0] ∧
      (∃ component, ringAndLoop.detect.components.toList[1]? = some component ∧
        component.root? = ringAndLoop.value? 0) ∧
      Rooted ringAndLoop.detect.graph.index? ringAndLoop.detect.graph.lowlink? [1, 0] 0 ∧
      ringAndLoop.detect.graph.lowlink? 1 ≠ ringAndLoop.detect.graph.index? 1 := by
  have popped : ringAndLoop.popped[1]? = some [1, 0] := by decide +kernel
  obtain ⟨component, reported⟩ : ∃ component,
      ringAndLoop.detect.components.toList[1]? = some component := ⟨_, rfl⟩
  obtain ⟨members, root, found, _, valued, rooted⟩ :=
    (detect_roots built_ringAndLoop).2.2.2.2 1 component reported
  obtain rfl : [1, 0] = members := Option.some.inj (popped.symm.trans found)
  obtain rfl : 0 = root := Option.some.inj rooted.last
  have other : ¬ ringAndLoop.detect.graph.lowlink? 1 = ringAndLoop.detect.graph.index? 1 := by
    rw [rooted.lowlink_eq_iff 1 List.mem_cons_self]
    decide
  exact ⟨built_ringAndLoop, popped, ⟨component, reported, valued⟩, rooted, other⟩

end Graph

end GraphsAndCaches
