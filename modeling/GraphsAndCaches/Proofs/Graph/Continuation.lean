import GraphsAndCaches.Proofs.Graph.Work

/-!
# What a traversal never takes back

A traversal continues an earlier state of itself when everything that was met is still met,
with the index that it got then, when whatever was met since has an index that was still free
then, and when the components that were closed are still the first ones. Every turn
continues the state before it, and so does every visit of further roots.

Hence a statement about the indices and the components of a state in between is a statement
about the first indices and the first components of the whole traversal. What was met in
such a state between two roots is what the roots so far reach.

A lowlink may still fall while its vertex is under way, and no longer. The vertices that were
left keep theirs to the end, whether their components were closed by then or not.
-/

namespace GraphsAndCaches

universe u
variable {α : Type u} {graph : Graph α}

namespace Progress

/-- The later state has all that the earlier one has, and adds to it behind it. -/
structure Continues (before after : Progress) : Prop where
  met : ∀ vertex, before.Met vertex → after.Met vertex
  index_eq : ∀ vertex, before.Met vertex → after.index vertex = before.index vertex
  index_ge : ∀ vertex, after.Met vertex → ¬ before.Met vertex →
    before.counter ≤ after.index vertex
  counter_le : before.counter ≤ after.counter
  closed : before.closed.toList <+: after.closed.toList

namespace Continues

variable {progress before middle after : Progress}

theorem refl (progress : Progress) : Continues progress progress where
  met _ known := known
  index_eq _ _ := rfl
  index_ge _ met fresh := absurd met fresh
  counter_le := Nat.le_refl _
  closed := List.prefix_rfl

theorem trans (first : Continues before middle) (second : Continues middle after) :
    Continues before after where
  met vertex known := second.met vertex (first.met vertex known)
  index_eq vertex known :=
    (second.index_eq vertex (first.met vertex known)).trans (first.index_eq vertex known)
  index_ge vertex met fresh := by
    by_cases between : middle.Met vertex
    · rw [second.index_eq vertex between]
      exact first.index_ge vertex between fresh
    · exact Nat.le_trans first.counter_le (second.index_ge vertex met between)
  counter_le := Nat.le_trans first.counter_le second.counter_le
  closed := first.closed.trans second.closed

/-- What has an index that was given before was met before. -/
theorem met_of_index_lt (continues : Continues before after) {vertex : VertexId}
    (met : after.Met vertex) (early : after.index vertex < before.counter) :
    before.Met vertex := by
  by_contra fresh
  exact Nat.not_lt_of_le (continues.index_ge vertex met fresh) early

/-- What was met before is what has an index that was given before. -/
theorem met_iff (continues : Continues before after) (orderly : before.Orderly graph)
    {vertex : VertexId} :
    before.Met vertex ↔ after.Met vertex ∧ after.index vertex < before.counter := by
  constructor
  · intro known
    refine ⟨continues.met vertex known, ?_⟩
    rw [continues.index_eq vertex known]
    exact orderly.index_lt_counter vertex known
  · rintro ⟨met, early⟩
    exact continues.met_of_index_lt met early

theorem discover {vertex : VertexId} (inside : vertex < progress.marks.size)
    (fresh : ¬ progress.Met vertex) : Continues progress (progress.discover vertex) where
  met _ known := (met_discover inside).mpr (.inr known)
  index_eq other known := by
    have different : other ≠ vertex := fun same => fresh (same ▸ known)
    rw [index_discover inside, if_neg different]
  index_ge other met unknown := by
    have same : other = vertex := ((met_discover inside).mp met).resolve_right unknown
    rw [index_discover inside, if_pos same]
  counter_le := Nat.le_succ _
  closed := List.prefix_rfl

theorem lower (vertex : VertexId) (bound : Nat) :
    Continues progress (progress.lower vertex bound) where
  met _ known := met_lower.mpr known
  index_eq other _ := index_lower other
  index_ge _ met unknown := absurd (met_lower.mp met) unknown
  counter_le := Nat.le_refl _
  closed := List.prefix_rfl

theorem handOver (frames : List Frame) (bound : Nat) :
    Continues progress (progress.handOver frames bound) := by
  cases frames with
  | nil => exact .refl progress
  | cons parent frames => exact .lower parent.vertex bound

theorem close {above below : List VertexId} {root : VertexId}
    (stacked : progress.stack = above ++ root :: below) (absent : root ∉ above) :
    Continues progress (progress.close graph root) where
  met _ known := (met_close stacked absent).mpr known
  index_eq other _ := index_close stacked absent other
  index_ge _ met unknown := absurd ((met_close stacked absent).mp met) unknown
  counter_le := Nat.le_of_eq (counter_close stacked absent).symm
  closed := ⟨_, (closed_close stacked absent).symm⟩

end Continues

end Progress

namespace Search

open Progress (Continues)

theorem Coherent.finish_continues {search : Search} (coherent : Coherent graph search)
    {frame : Frame} (member : frame ∈ search.frames) :
    Continues search.progress (search.progress.finish graph frame.vertex) := by
  rw [Progress.finish]
  split
  · obtain ⟨above, below, stacked, absent⟩ := coherent.stack_split member
    exact .close stacked absent
  · exact .refl _

theorem Turn.continues {before after : Search} (turn : Turn graph before after)
    (wellFormed : graph.WellFormed) (coherent : Coherent graph before) :
    Continues before.progress after.progress := by
  cases turn with
  | @descend progress frames vertex target next found fresh =>
      exact .discover (coherent.marked_target wellFormed found) fresh
  | bound found isOpen => exact .lower _ _
  | skip found met isClosed => exact .refl _
  | leave exhausted =>
      exact (coherent.finish_continues List.mem_cons_self).trans (.handOver _ _)

end Search

/-- Visits of further roots continue what was traversed before. -/
theorem Graph.visits_continue (wellFormed : graph.WellFormed) {roots : List Nat}
    {progress : Progress} (inside : ∀ root ∈ roots, root < graph.size)
    (coherent : Search.Coherent graph { progress, frames := [] }) :
    progress.Continues (roots.foldl (graph.visit graph.turns) progress) := by
  have turn : ∀ before after, Search.Coherent graph before → Search.Turn graph before after →
      progress.Continues before.progress → progress.Continues after.progress :=
    fun before after coherentBefore turn known =>
      known.trans (turn.continues wellFormed coherentBefore)
  refine visits_invariant wellFormed turn inside ?_ coherent (.refl progress)
  intro root member between coherentBetween fresh known
  have marked : root < between.marks.size :=
    coherentBetween.orderly.size_marks ▸ inside root member
  exact known.trans (.discover marked fresh)

/-! ## What was left -/

namespace Search

/-- The vertex was met and is no longer under way. -/
def Left (search : Search) (vertex : VertexId) : Prop :=
  search.progress.Met vertex ∧ vertex ∉ search.frames.map Frame.vertex

theorem left_cons_iff {progress : Progress} {frame : Frame} {frames : List Frame}
    {vertex : VertexId} :
    Left { progress, frames := frame :: frames } vertex ↔
      vertex ≠ frame.vertex ∧ Left { progress, frames } vertex := by
  simp only [Left, List.map_cons, List.mem_cons, not_or, and_left_comm]

/-- A turn takes up no vertex again that was left, and changes no lowlink but those of the
vertices under way. -/
theorem Turn.keeps_left {before after : Search} (turn : Turn graph before after)
    (wellFormed : graph.WellFormed) (coherent : Coherent graph before) {vertex : VertexId}
    (left : before.Left vertex) :
    after.Left vertex ∧ after.progress.lowlink vertex = before.progress.lowlink vertex := by
  have met := turn.met_mono wellFormed coherent left.1
  cases turn with
  | @descend progress frames source target next found fresh =>
      have other : vertex ≠ target := fun same => fresh (same ▸ left.1)
      refine ⟨left_cons_iff.mpr ⟨other, met, left.2⟩, ?_⟩
      rw [Progress.lowlink_discover (coherent.marked_target wellFormed found), if_neg other]
  | bound found isOpen =>
      obtain ⟨other, rest⟩ := left_cons_iff.mp left
      refine ⟨left_cons_iff.mpr ⟨other, met, rest.2⟩, ?_⟩
      rw [Progress.lowlink_lower, if_neg other]
  | skip found targetMet isClosed => exact ⟨left, rfl⟩
  | leave exhausted =>
      obtain ⟨_, rest⟩ := left_cons_iff.mp left
      exact ⟨⟨met, rest.2⟩, coherent.lowlink_leave List.mem_cons_self rest.2⟩

end Search

/-- Visits of further roots leave the lowlinks alone that there were before. -/
theorem Graph.lowlink_visits (wellFormed : graph.WellFormed) {roots : List Nat}
    {progress : Progress} (inside : ∀ root ∈ roots, root < graph.size)
    (coherent : Search.Coherent graph { progress, frames := [] }) {vertex : VertexId}
    (met : progress.Met vertex) :
    (roots.foldl (graph.visit graph.turns) progress).lowlink vertex = progress.lowlink vertex := by
  have turn : ∀ before after, Search.Coherent graph before → Search.Turn graph before after →
      before.Left vertex ∧ before.progress.lowlink vertex = progress.lowlink vertex →
        after.Left vertex ∧ after.progress.lowlink vertex = progress.lowlink vertex := by
    intro before after coherentBefore turn known
    obtain ⟨left, same⟩ := turn.keeps_left wellFormed coherentBefore known.1
    exact ⟨left, same.trans known.2⟩
  have start : Search.Left { progress, frames := [] } vertex := ⟨met, List.not_mem_nil⟩
  refine (visits_invariant wellFormed turn inside ?_ coherent ⟨start, rfl⟩).2
  intro root member between coherentBetween fresh known
  have marked : root < between.marks.size :=
    coherentBetween.orderly.size_marks ▸ inside root member
  have other : vertex ≠ root := fun same => fresh (same ▸ known.1.1)
  refine ⟨⟨(Progress.met_discover marked).mpr (.inr known.1.1), ?_⟩, ?_⟩
  · exact fun member => other (List.mem_singleton.mp member)
  · exact (Progress.lowlink_discover marked vertex).trans ((if_neg other).trans known.2)

/-! ## What the roots reach -/

namespace Search

/-- Nothing was met but what the roots reach. -/
def Confined (graph : Graph α) (roots : List VertexId) (search : Search) : Prop :=
  ∀ vertex, search.progress.Met vertex → ∃ root ∈ roots, graph.Reaches root vertex

/-- A turn meets nothing but the target of an edge. -/
theorem Confined.turn (wellFormed : graph.WellFormed) {roots : List VertexId}
    {before after : Search} (confined : Confined graph roots before)
    (coherent : Coherent graph before) (turn : Turn graph before after) :
    Confined graph roots after := by
  intro vertex met
  cases turn with
  | @descend progress frames source target next found fresh =>
      have marked : target < progress.marks.size := coherent.marked_target wellFormed found
      rcases (Progress.met_discover marked).mp met with rfl | old
      · obtain ⟨root, member, path⟩ := confined source (coherent.met_of_frame List.mem_cons_self)
        exact ⟨root, member, path.trans (.ofEdge (Graph.edge_of_target? found))⟩
      · exact confined vertex old
  | bound found isOpen => exact confined vertex (Progress.met_lower.mp met)
  | skip found targetMet isClosed => exact confined vertex met
  | leave exhausted =>
      exact confined vertex ((coherent.met_leave List.mem_cons_self).mp met)

end Search

namespace Graph

open Search (Confined)

/-- What visits of roots meet is what the roots reach. -/
theorem met_visits_iff (wellFormed : graph.WellFormed) {roots : List Nat}
    (inside : ∀ root ∈ roots, root < graph.size) (vertex : VertexId) :
    (roots.foldl (graph.visit graph.turns) (.start graph.size)).Met vertex ↔
      ∃ root ∈ roots, graph.Reaches root vertex := by
  obtain ⟨coherent, rootsMet⟩ := visits_complete wellFormed inside (.start graph)
  constructor
  · have nothing : Confined graph roots { progress := .start graph.size, frames := [] } :=
      fun other met => absurd met (Progress.not_met_start graph.size other)
    refine visits_invariant wellFormed
      (fun _ _ coherentBefore turn known => known.turn wellFormed coherentBefore turn)
      inside ?_ (.start graph) nothing vertex
    intro root member progress coherentBetween _ known other met
    have marked : root < progress.marks.size :=
      coherentBetween.orderly.size_marks ▸ inside root member
    rcases (Progress.met_discover marked).mp met with rfl | old
    · exact ⟨other, member, .refl graph other⟩
    · exact known other old
  · rintro ⟨root, member, path⟩
    refine path.closed (fun source target met edge => ?_) (rootsMet root (.inl member))
    exact coherent.met_of_edge met List.not_mem_nil edge

/-! ## The first roots -/

/-- What is traversed from the first vertices, as many as a number tells. -/
def visitFirst (graph : Graph α) (count : Nat) : Progress :=
  (List.range count).foldl (graph.visit graph.turns) (.start graph.size)

/-- The first vertices, and the others. -/
theorem vertexIds_split {count : Nat} (within : count ≤ graph.size) :
    graph.vertexIds = List.range count ++ List.range' count (graph.size - count) := by
  have joined : List.range count ++ List.range' count (graph.size - count) =
      List.range' 0 (count + (graph.size - count)) := by
    rw [List.range_eq_range', ← List.range'_append_1, Nat.zero_add]
  rw [joined, Nat.add_sub_cancel' within, ← List.range_eq_range', vertexIds]

section

variable {count : Nat} {vertex : VertexId}

theorem lt_size_of_mem_range (within : count ≤ graph.size) :
    ∀ root ∈ List.range count, root < graph.size :=
  fun _ member => Nat.lt_of_lt_of_le (List.mem_range.mp member) within

theorem lt_size_of_mem_range' (within : count ≤ graph.size) :
    ∀ root ∈ List.range' count (graph.size - count), root < graph.size := by
  intro root member
  have bound := (List.mem_range'_1.mp member).2
  rwa [Nat.add_sub_cancel' within] at bound

theorem coherent_visitFirst (wellFormed : graph.WellFormed) (within : count ≤ graph.size) :
    Search.Coherent graph { progress := graph.visitFirst count, frames := [] } :=
  (visits_complete wellFormed (lt_size_of_mem_range within) (.start graph)).1

/-- The traversal goes on from there with the other vertices. -/
theorem traverse_eq_visits (within : count ≤ graph.size) :
    graph.traverse = (List.range' count (graph.size - count)).foldl (graph.visit graph.turns)
      (graph.visitFirst count) := by
  rw [traverse_eq, vertexIds_split within, List.foldl_append, visitFirst]

theorem visitFirst_continues (wellFormed : graph.WellFormed) (within : count ≤ graph.size) :
    (graph.visitFirst count).Continues graph.traverse := by
  rw [traverse_eq_visits within]
  exact visits_continue wellFormed (lt_size_of_mem_range' within)
    (coherent_visitFirst wellFormed within)

theorem lowlink_visitFirst (wellFormed : graph.WellFormed) (within : count ≤ graph.size)
    (met : (graph.visitFirst count).Met vertex) :
    graph.traverse.lowlink vertex = (graph.visitFirst count).lowlink vertex := by
  rw [traverse_eq_visits within]
  exact lowlink_visits wellFormed (lt_size_of_mem_range' within)
    (coherent_visitFirst wellFormed within) met

theorem met_visitFirst_iff (wellFormed : graph.WellFormed) (within : count ≤ graph.size) :
    (graph.visitFirst count).Met vertex ↔ ∃ root < count, graph.Reaches root vertex := by
  simp only [visitFirst, met_visits_iff wellFormed (lt_size_of_mem_range within), List.mem_range]

end

end Graph

end GraphsAndCaches
