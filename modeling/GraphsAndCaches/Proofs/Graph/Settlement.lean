import GraphsAndCaches.Proofs.Graph.Progress

/-!
# Orderly marks and settled components

The marks of a traversal are orderly when they number the met vertices from zero
without gaps, when a lowlink is never above its index, and when the open vertices are
those on the stack, with indices that grow toward its top.

Its closed components are settled when they consist of the vertices that were met
and are no longer open, each once; when the members of one reach one another; when no
edge leads out of them to another vertex; and when none of them reaches a later one.

Meeting a vertex and lowering a lowlink keep both properties. Closing a component
keeps them as well when its members reach one another and no edge leads from them to
the rest of the stack. `Layers` supplies these two facts.
-/

namespace GraphsAndCaches

universe u
variable {α : Type u}

namespace Progress

/-- The marks number the met vertices in the order in which they were met, and the
stack holds the open ones with the latest on top. -/
structure Orderly (graph : Graph α) (progress : Progress) : Prop where
  size_marks : progress.marks.size = graph.size
  index_lt_counter : ∀ vertex, progress.Met vertex → progress.index vertex < progress.counter
  index_injective : ∀ left right, progress.Met left → progress.Met right →
    progress.index left = progress.index right → left = right
  index_attained : ∀ number < progress.counter, ∃ vertex,
    progress.Met vertex ∧ progress.index vertex = number
  lowlink_le_index : ∀ vertex, progress.Met vertex →
    progress.lowlink vertex ≤ progress.index vertex
  open_iff : ∀ vertex, progress.Open vertex ↔ vertex ∈ progress.stack
  stack_sorted : progress.stack.Pairwise fun later earlier =>
    progress.index earlier < progress.index later

/-- All members of the closed components, component after component. -/
def closedVertices (progress : Progress) : List VertexId :=
  progress.closed.toList.flatMap Component.members

/-- The closed components partition the vertices that were met and left for good. -/
structure Settled (graph : Graph α) (progress : Progress) : Prop where
  mem_iff : ∀ vertex,
    vertex ∈ progress.closedVertices ↔ progress.Met vertex ∧ ¬ progress.Open vertex
  nodup : progress.closedVertices.Nodup
  edge_closed : ∀ source target, source ∈ progress.closedVertices →
    graph.Edge source target → target ∈ progress.closedVertices
  nonempty : ∀ component ∈ progress.closed.toList, component.members ≠ []
  together : ∀ component ∈ progress.closed.toList, ∀ left ∈ component.members,
    ∀ right ∈ component.members, graph.Mutual left right
  ordered : progress.closed.toList.Pairwise fun earlier later =>
    ∀ source ∈ earlier.members, ∀ target ∈ later.members, ¬ graph.Reaches source target

namespace Orderly

variable {graph : Graph α} {progress : Progress}

theorem start (graph : Graph α) : Orderly graph (.start graph.size) where
  size_marks := size_marks_start graph.size
  index_lt_counter vertex met := absurd met (not_met_start graph.size vertex)
  index_injective left _ met := absurd met (not_met_start graph.size left)
  index_attained number early := absurd early (Nat.not_lt_zero number)
  lowlink_le_index vertex met := absurd met (not_met_start graph.size vertex)
  open_iff vertex :=
    ⟨fun isOpen => absurd isOpen.met (not_met_start graph.size vertex),
      fun member => nomatch member⟩
  stack_sorted := List.Pairwise.nil

theorem met_of_mem_stack (orderly : Orderly graph progress) {vertex : VertexId}
    (member : vertex ∈ progress.stack) : progress.Met vertex :=
  ((orderly.open_iff vertex).mpr member).met

/-- No vertex is on the stack twice. -/
theorem stack_nodup (orderly : Orderly graph progress) : progress.stack.Nodup := by
  have distinct : progress.stack.Pairwise (· ≠ ·) := by
    refine orderly.stack_sorted.imp fun {later earlier} smaller same => ?_
    subst same
    exact Nat.lt_irrefl _ smaller
  exact distinct

/-- Where the stack is split, every vertex above was met after those below. -/
theorem index_lt_of_split (orderly : Orderly graph progress) {above below : List VertexId}
    {vertex : VertexId} (stacked : progress.stack = above ++ vertex :: below) :
    (∀ upper ∈ above, progress.index vertex < progress.index upper) ∧
      ∀ lower ∈ below, progress.index lower < progress.index vertex := by
  have sorted := orderly.stack_sorted
  rw [stacked, List.pairwise_append] at sorted
  obtain ⟨_, sortedBelow, across⟩ := sorted
  exact ⟨fun upper member => across upper member vertex List.mem_cons_self,
    (List.pairwise_cons.mp sortedBelow).1⟩

theorem not_mem_above (orderly : Orderly graph progress) {above below : List VertexId}
    {vertex : VertexId} (stacked : progress.stack = above ++ vertex :: below) :
    vertex ∉ above := fun member =>
  Nat.lt_irrefl _ ((orderly.index_lt_of_split stacked).1 vertex member)

/-- A vertex of the stack that was not met before another is that one or above it. -/
theorem mem_above_of_index_le (orderly : Orderly graph progress)
    {above below : List VertexId} {vertex other : VertexId}
    (stacked : progress.stack = above ++ vertex :: below) (member : other ∈ progress.stack)
    (le : progress.index vertex ≤ progress.index other) : other ∈ above ++ [vertex] := by
  rw [stacked] at member
  rcases List.mem_append.mp member with upper | rest
  · exact List.mem_append_left _ upper
  · rcases List.mem_cons.mp rest with rfl | lower
    · exact List.mem_append_right _ List.mem_cons_self
    · exact absurd ((orderly.index_lt_of_split stacked).2 other lower) (Nat.not_lt_of_le le)

theorem discover (orderly : Orderly graph progress) {vertex : VertexId}
    (inside : vertex < graph.size) (fresh : ¬ progress.Met vertex) :
    Orderly graph (progress.discover vertex) := by
  have marked : vertex < progress.marks.size := orderly.size_marks ▸ inside
  have old : ∀ other, progress.Met other → other ≠ vertex := fun other met same =>
    fresh (same ▸ met)
  refine ⟨size_marks_discover.trans orderly.size_marks, ?_, ?_, ?_, ?_, ?_, ?_⟩
  · intro other met
    rw [index_discover marked, counter_discover]
    split
    · exact Nat.lt_succ_self _
    · next different =>
        have before := ((met_discover marked).mp met).resolve_left different
        exact Nat.lt_succ_of_lt (orderly.index_lt_counter other before)
  · intro left right leftMet rightMet same
    rw [index_discover marked, index_discover marked] at same
    rcases (met_discover marked).mp leftMet with rfl | leftBefore
    · rcases (met_discover marked).mp rightMet with rfl | rightBefore
      · rfl
      · simp only [if_true, old right rightBefore, if_false] at same
        exact absurd same (Nat.ne_of_gt (orderly.index_lt_counter right rightBefore))
    · rcases (met_discover marked).mp rightMet with rfl | rightBefore
      · simp only [if_true, old left leftBefore, if_false] at same
        exact absurd same (Nat.ne_of_lt (orderly.index_lt_counter left leftBefore))
      · simp only [old left leftBefore, old right rightBefore, if_false] at same
        exact orderly.index_injective left right leftBefore rightBefore same
  · intro number early
    rcases Nat.lt_succ_iff_lt_or_eq.mp early with before | rfl
    · obtain ⟨other, met, attained⟩ := orderly.index_attained number before
      refine ⟨other, (met_discover marked).mpr (.inr met), ?_⟩
      rw [index_discover marked, if_neg (old other met), attained]
    · exact ⟨vertex, (met_discover marked).mpr (.inl rfl), by
        rw [index_discover marked, if_pos rfl]⟩
  · intro other met
    rw [index_discover marked, lowlink_discover marked]
    split
    · exact Nat.le_refl _
    · next different =>
        have before := ((met_discover marked).mp met).resolve_left different
        exact orderly.lowlink_le_index other before
  · intro other
    rw [open_discover marked, stack_discover, List.mem_cons, orderly.open_iff]
  · rw [stack_discover, List.pairwise_cons]
    constructor
    · intro other member
      have met := orderly.met_of_mem_stack member
      rw [index_discover marked, index_discover marked, if_neg (old other met), if_pos rfl]
      exact orderly.index_lt_counter other met
    · refine orderly.stack_sorted.imp_of_mem fun {later earlier} laterIn earlierIn smaller => ?_
      rw [index_discover marked, index_discover marked,
        if_neg (old later (orderly.met_of_mem_stack laterIn)),
        if_neg (old earlier (orderly.met_of_mem_stack earlierIn))]
      exact smaller

theorem lower (orderly : Orderly graph progress) (vertex : VertexId) (bound : Nat) :
    Orderly graph (progress.lower vertex bound) := by
  refine ⟨size_marks_lower.trans orderly.size_marks, ?_, ?_, ?_, ?_, ?_, ?_⟩
  · simpa using orderly.index_lt_counter
  · simpa using orderly.index_injective
  · simpa using orderly.index_attained
  · intro other met
    have le := orderly.lowlink_le_index other (met_lower.mp met)
    rw [lowlink_lower, index_lower]
    split
    · exact Nat.le_trans (Nat.min_le_left _ _) le
    · exact le
  · simpa using orderly.open_iff
  · simpa using orderly.stack_sorted

/-- The stack below a vertex is what is neither that vertex nor above it. -/
theorem mem_below_iff (orderly : Orderly graph progress) {above below : List VertexId}
    {vertex : VertexId} (stacked : progress.stack = above ++ vertex :: below)
    {other : VertexId} :
    other ∈ below ↔ other ∈ progress.stack ∧ other ∉ above ++ [vertex] := by
  obtain ⟨larger, smaller⟩ := orderly.index_lt_of_split stacked
  rw [stacked]
  constructor
  · intro lower
    refine ⟨List.mem_append_right _ (List.mem_cons_of_mem _ lower), ?_⟩
    intro member
    have below := smaller other lower
    rcases List.mem_append.mp member with upper | last
    · exact Nat.lt_asymm below (larger other upper)
    · rw [List.mem_singleton.mp last] at below
      exact Nat.lt_irrefl _ below
  · rintro ⟨member, outside⟩
    rcases List.mem_append.mp member with upper | rest
    · exact absurd (List.mem_append_left _ upper) outside
    · rcases List.mem_cons.mp rest with rfl | lower
      · exact absurd (List.mem_append_right _ List.mem_cons_self) outside
      · exact lower

theorem close (orderly : Orderly graph progress) {above below : List VertexId}
    {root : VertexId} (stacked : progress.stack = above ++ root :: below) :
    Orderly graph (progress.close graph root) := by
  have absent : root ∉ above := orderly.not_mem_above stacked
  have index : ∀ other, (progress.close graph root).index other = progress.index other :=
    index_close stacked absent
  refine ⟨(size_marks_close stacked absent).trans orderly.size_marks, ?_, ?_, ?_, ?_, ?_, ?_⟩
  · intro other met
    rw [index, counter_close stacked absent]
    exact orderly.index_lt_counter other ((met_close stacked absent).mp met)
  · intro left right leftMet rightMet same
    rw [index, index] at same
    exact orderly.index_injective left right ((met_close stacked absent).mp leftMet)
      ((met_close stacked absent).mp rightMet) same
  · intro number early
    rw [counter_close stacked absent] at early
    obtain ⟨other, met, attained⟩ := orderly.index_attained number early
    exact ⟨other, (met_close stacked absent).mpr met, (index other).trans attained⟩
  · intro other met
    rw [lowlink_close stacked absent, index]
    exact orderly.lowlink_le_index other ((met_close stacked absent).mp met)
  · intro other
    rw [open_close stacked absent, orderly.open_iff, stack_close stacked absent,
      orderly.mem_below_iff stacked]
  · have sorted := orderly.stack_sorted
    rw [stacked, List.pairwise_append] at sorted
    rw [stack_close stacked absent]
    simp only [index]
    exact (List.pairwise_cons.mp sorted.2.1).2

end Orderly

namespace Settled

variable {graph : Graph α} {progress : Progress}

theorem start (graph : Graph α) : Settled graph (.start graph.size) where
  mem_iff vertex :=
    ⟨fun member => absurd member List.not_mem_nil,
      fun ⟨met, _⟩ => absurd met (not_met_start graph.size vertex)⟩
  nodup := List.nodup_nil
  edge_closed _ _ member := nomatch member
  nonempty _ member := nomatch member
  together _ member := nomatch member
  ordered := List.Pairwise.nil

theorem discover (settled : Settled graph progress) {vertex : VertexId}
    (inside : vertex < progress.marks.size) (fresh : ¬ progress.Met vertex) :
    Settled graph (progress.discover vertex) where
  mem_iff other := by
    have before := settled.mem_iff other
    rw [met_discover inside, open_discover inside]
    by_cases same : other = vertex
    · subst same
      simpa [fresh, closedVertices] using before
    · simpa [same, closedVertices] using before
  nodup := settled.nodup
  edge_closed := settled.edge_closed
  nonempty := settled.nonempty
  together := settled.together
  ordered := settled.ordered

theorem lower (settled : Settled graph progress) (vertex : VertexId) (bound : Nat) :
    Settled graph (progress.lower vertex bound) where
  mem_iff other := by
    rw [met_lower, open_lower]
    exact settled.mem_iff other
  nodup := settled.nodup
  edge_closed := settled.edge_closed
  nonempty := settled.nonempty
  together := settled.together
  ordered := settled.ordered

/-- The vertices of a new component follow those that were closed before. -/
theorem closedVertices_close {above below : List VertexId} {root : VertexId}
    (stacked : progress.stack = above ++ root :: below) (absent : root ∉ above) :
    (progress.close graph root).closedVertices =
      progress.closedVertices ++ (above ++ [root]) := by
  simp only [closedVertices, closed_close stacked absent, List.flatMap_append,
    List.flatMap_singleton]

/-- The vertices down to a root may be closed when they reach one another and no
edge leads from them to the rest of the stack. That they come after every earlier
component is no further condition, since no path leaves what is closed already. -/
theorem close (settled : Settled graph progress) (orderly : Orderly graph progress)
    {above below : List VertexId} {root : VertexId}
    (stacked : progress.stack = above ++ root :: below)
    (together : ∀ vertex ∈ above ++ [root], graph.Mutual root vertex)
    (leaving : ∀ source ∈ above ++ [root], ∀ target, graph.Edge source target →
      target ∈ progress.closedVertices ∨ target ∈ above ++ [root]) :
    Settled graph (progress.close graph root) := by
  have absent : root ∉ above := orderly.not_mem_above stacked
  have membersOpen : ∀ vertex ∈ above ++ [root], progress.Open vertex := by
    intro vertex member
    rw [orderly.open_iff, stacked, List.append_cons]
    exact List.mem_append_left below member
  have notClosed : ∀ vertex ∈ above ++ [root], vertex ∉ progress.closedVertices :=
    fun vertex member closed => ((settled.mem_iff vertex).mp closed).2 (membersOpen vertex member)
  have closedList : (progress.close graph root).closed.toList = _ := closed_close stacked absent
  have vertices : (progress.close graph root).closedVertices = _ :=
    closedVertices_close stacked absent
  refine ⟨?_, ?_, ?_, ?_, ?_, ?_⟩
  · intro vertex
    rw [vertices, List.mem_append, met_close stacked absent, open_close stacked absent,
      settled.mem_iff]
    by_cases member : vertex ∈ above ++ [root]
    · have met : progress.Met vertex := (membersOpen vertex member).met
      simp only [member, or_true, met, not_true_eq_false, and_false, not_false_eq_true,
        and_self]
    · simp only [member, or_false, not_false_eq_true, and_true]
  · rw [vertices, List.nodup_append]
    have stackNodup := orderly.stack_nodup
    rw [stacked, List.append_cons] at stackNodup
    refine ⟨settled.nodup, (List.nodup_append.mp stackNodup).1, ?_⟩
    rintro vertex closed other member rfl
    exact notClosed vertex member closed
  · intro source target member edge
    rw [vertices, List.mem_append] at member ⊢
    rcases member with closed | new
    · exact .inl (settled.edge_closed source target closed edge)
    · exact leaving source new target edge
  · intro component member
    rw [closedList] at member
    rcases List.mem_append.mp member with old | new
    · exact settled.nonempty component old
    · rw [List.mem_singleton.mp new]
      exact List.append_ne_nil_of_right_ne_nil _ (List.cons_ne_nil root [])
  · intro component member left leftIn right rightIn
    rw [closedList] at member
    rcases List.mem_append.mp member with old | new
    · exact settled.together component old left leftIn right rightIn
    · rw [List.mem_singleton.mp new] at leftIn rightIn
      exact (together left leftIn).symm.trans (together right rightIn)
  · rw [closedList, List.pairwise_append]
    refine ⟨settled.ordered, List.pairwise_singleton _ _, ?_⟩
    intro earlier earlierIn later laterIn source sourceIn target targetIn path
    rw [List.mem_singleton.mp laterIn] at targetIn
    have sourceClosed : source ∈ progress.closedVertices :=
      List.mem_flatMap.mpr ⟨earlier, earlierIn, sourceIn⟩
    exact notClosed target targetIn (path.closed settled.edge_closed sourceClosed)

end Settled

end Progress

end GraphsAndCaches
