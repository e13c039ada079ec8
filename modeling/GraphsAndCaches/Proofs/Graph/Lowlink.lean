import GraphsAndCaches.Proofs.Graph.Preorder
import Mathlib.Order.Bounds.Basic

/-!
# What a lowlink is

The lowlink of a vertex is computed along the way: an edge to an open vertex brings it down
to the index of that vertex, and so does a vertex that was met from there when it is left.
In the end it has a meaning of its own. Take the block of the vertex, which is what the
vertex reaches without passing an index below its own, and the edges that start in the block
and do not leave their component. The lowlink is the least among the index of the vertex and
the indices that these edges lead to.

That an edge does not leave its component is what being open says of its target. While the
source is under way an open target reaches it, and a closed one does not. The lowlink of a
closed component is handed over as well; it does no harm, as everything in that component was
met after the vertex that takes it over.

Two things are kept by every turn. A lowlink is always one of these indices, and that of a
vertex that was left is no greater than any of them. The second one is decided when the vertex
is left, since all edges of its block were followed by then.
-/

namespace GraphsAndCaches

universe u
variable {α : Type u} {graph : Graph α}

namespace Graph

/-- The index of a vertex, which is the first one, and the indices of the targets of edges
that stay in their component and start at what the vertex reaches without passing an index
below its own. -/
def lowBounds (graph : Graph α) (indexOf : VertexId → Option Nat) (first : Nat)
    (vertex : VertexId) : Set Nat :=
  { number | number = first ∨ ∃ source target,
      graph.ReachesSince indexOf first vertex source ∧ graph.Edge source target ∧
        graph.Mutual source target ∧ indexOf target = some number }

/-- A path that passes no index below a given one is a path. -/
theorem ReachesSince.reaches {indexOf : VertexId → Option Nat} {first : Nat}
    {source target : VertexId} (path : graph.ReachesSince indexOf first source target) :
    graph.Reaches source target :=
  Relation.ReflTransGen.mono (fun _ _ step => step.1) source target path

end Graph

namespace Progress

variable {progress before after : Progress} {vertex : VertexId} {stop : Nat}

/-- The bounds of the lowlink of a vertex, as far as the traversal has come. -/
def bounds (graph : Graph α) (progress : Progress) (vertex : VertexId) : Set Nat :=
  graph.lowBounds progress.index? (progress.index vertex) vertex

/-- Where a path without an index below that of its first vertex leads. -/
theorem since_of_reachesSince (met : progress.Met vertex) {other : VertexId}
    (path : graph.ReachesSince progress.index? (progress.index vertex) vertex other) :
    progress.Met other ∧ progress.index vertex ≤ progress.index other := by
  cases path with
  | refl => exact ⟨met, Nat.le_refl _⟩
  | tail _ step => exact exists_index?_iff.mp step.2

namespace Continues

theorem index?_eq (continues : Continues before after) (met : before.Met vertex) :
    after.index? vertex = before.index? vertex := by
  rw [met.index?_eq, (continues.met vertex met).index?_eq, continues.index_eq vertex met]

/-- A traversal that has come no further has the same indices. -/
theorem index?_funext (continues : Continues before after)
    (nothingNew : ∀ vertex, after.Met vertex → before.Met vertex) :
    after.index? = before.index? := by
  funext vertex
  by_cases met : before.Met vertex
  · exact continues.index?_eq met
  · have unmet : ∀ {progress : Progress}, ¬ progress.Met vertex →
        progress.index? vertex = none := by
      intro progress fresh
      rw [Option.eq_none_iff_forall_ne_some]
      intro number indexed
      exact fresh (exists_index?_iff.mp ⟨number, indexed, Nat.zero_le number⟩).1
    rw [unmet met, unmet fun known => met (nothingNew vertex known)]

/-- No bound is lost. -/
theorem bounds_mono (continues : Continues before after) (met : before.Met vertex) :
    before.bounds graph vertex ⊆ after.bounds graph vertex := by
  have same : after.index vertex = before.index vertex := continues.index_eq vertex met
  rintro number (own | ⟨source, target, path, edge, together, indexed⟩)
  · exact .inl (own.trans same.symm)
  · have targetMet : before.Met target := (index?_eq_some_iff.mp indexed).1
    refine .inr ⟨source, target, ?_, edge, together, ?_⟩
    · rw [same]
      exact continues.reachesSince path
    · rw [continues.index?_eq targetMet, indexed]

end Continues

/-- A vertex that has its block gets no further bounds. -/
theorem Block.bounds_subset (block : Block graph before vertex stop)
    (continues : Continues before after) (met : before.Met vertex) :
    after.bounds graph vertex ⊆ before.bounds graph vertex := by
  have same : after.index vertex = before.index vertex := continues.index_eq vertex met
  rintro number (own | ⟨source, target, path, edge, together, indexed⟩)
  · exact .inl (own.trans same)
  · obtain ⟨sourceMet, late, early⟩ :=
      ((block.continues continues met).reachesSince_iff (continues.met vertex met) source).mp path
    have known := continues.met_of_index_lt sourceMet (Nat.lt_of_lt_of_le early block.counted)
    rw [same, continues.index_eq source known] at late
    rw [continues.index_eq source known] at early
    have targetKnown := (block.edge source target known late early edge).1
    refine .inr ⟨source, target, block.reached source known late early, edge, together, ?_⟩
    rw [← continues.index?_eq targetKnown, indexed]

/-! ## Lowlinks are bounds -/

/-- Every lowlink is one of the bounds of its vertex. -/
def Attained (graph : Graph α) (progress : Progress) : Prop :=
  ∀ vertex, progress.Met vertex → progress.lowlink vertex ∈ progress.bounds graph vertex

namespace Attained

/-- Where no vertex is met and no lowlink is changed, nothing has to be shown. -/
theorem keep (attained : Attained graph before) (continues : Continues before after)
    (nothingNew : ∀ vertex, after.Met vertex → before.Met vertex)
    (lowlink : ∀ vertex, after.lowlink vertex = before.lowlink vertex) :
    Attained graph after := by
  intro vertex met
  have known := nothingNew vertex met
  rw [lowlink]
  exact continues.bounds_mono known (attained vertex known)

/-- The lowlink of a new vertex is its index. -/
theorem discover (attained : Attained graph progress) (inside : vertex < progress.marks.size)
    (fresh : ¬ progress.Met vertex) : Attained graph (progress.discover vertex) := by
  intro other met
  rw [lowlink_discover inside]
  split
  · next same => exact .inl (by rw [index_discover inside, if_pos same])
  · next different =>
      have known := ((met_discover inside).mp met).resolve_left different
      exact (Continues.discover inside fresh).bounds_mono known (attained other known)

/-- A lowlink may be lowered to a bound. -/
theorem lower (attained : Attained graph progress) {bound : Nat}
    (allowed : bound < progress.lowlink vertex → bound ∈ progress.bounds graph vertex) :
    Attained graph (progress.lower vertex bound) := by
  intro other met
  have known := met_lower.mp met
  apply (Continues.lower vertex bound).bounds_mono known
  rw [lowlink_lower]
  split
  · next same =>
      subst same
      rcases Nat.lt_or_ge bound (progress.lowlink other) with lowers | keeps
      · rw [Nat.min_eq_right (Nat.le_of_lt lowers)]
        exact allowed lowers
      · rw [Nat.min_eq_left keeps]
        exact attained other known
  · exact attained other known

/-- The lowlink of a vertex may be handed over to the one from which it was met. If it is the
index of the vertex, it lowers nothing, and the other bounds of the vertex are bounds there. -/
theorem handOver (attained : Attained graph progress) {parent : VertexId}
    (met : progress.Met vertex) (edge : graph.Edge parent vertex)
    (later : progress.index parent < progress.index vertex)
    (below : progress.lowlink parent ≤ progress.index parent) :
    Attained graph (progress.lower parent (progress.lowlink vertex)) := by
  apply attained.lower
  intro lowers
  rcases attained vertex met with own | ⟨source, target, path, leaving, together, indexed⟩
  · omega
  · have weaker : graph.ReachesSince progress.index? (progress.index parent) vertex source := by
      refine Relation.ReflTransGen.mono ?_ vertex source path
      rintro _ next ⟨step, index, indexedNext, late⟩
      exact ⟨step, index, indexedNext, by omega⟩
    have first : graph.Edge parent vertex ∧
        ∃ index, progress.index? vertex = some index ∧ progress.index parent ≤ index :=
      ⟨edge, progress.index vertex, met.index?_eq, Nat.le_of_lt later⟩
    exact .inr ⟨source, target, weaker.head first, leaving, together, indexed⟩

end Attained

end Progress

namespace Search

open Progress (Continues Attained)

theorem Coherent.attained_turn (wellFormed : graph.WellFormed) {before after : Search}
    (coherent : Coherent graph before) (turn : Turn graph before after)
    (attained : Attained graph before.progress) : Attained graph after.progress := by
  cases turn with
  | @descend progress frames vertex target next found fresh =>
      exact attained.discover (coherent.marked_target wellFormed found) fresh
  | @bound progress frames vertex target next found isOpen =>
      have edge : graph.Edge vertex target := Graph.edge_of_target? found
      have back : graph.Reaches target vertex :=
        coherent.layers.reaches_top ((coherent.orderly.open_iff target).mp isOpen)
      refine attained.lower fun _ => .inr ⟨vertex, target, .refl, edge, ⟨.ofEdge edge, back⟩, ?_⟩
      exact isOpen.met.index?_eq
  | skip found met isClosed => exact attained
  | @leave progress frames vertex next exhausted =>
      have stacked : vertex ∈ progress.stack := coherent.stacked_of_frame List.mem_cons_self
      have met : progress.Met vertex := coherent.orderly.met_of_mem_stack stacked
      have continues : Continues progress (progress.finish graph vertex) :=
        coherent.finish_continues List.mem_cons_self
      have sameMet : ∀ other, (progress.finish graph vertex).Met other ↔ progress.Met other :=
        fun _ => coherent.met_finish List.mem_cons_self
      have lowlink := Progress.lowlink_finish coherent.orderly stacked
      have finished : Attained graph (progress.finish graph vertex) :=
        attained.keep continues (fun other => (sameMet other).mp) lowlink
      cases frames with
      | nil => exact finished
      | cons parent frames =>
          have parentMet : progress.Met parent.vertex :=
            coherent.met_of_frame (List.mem_cons_of_mem _ List.mem_cons_self)
          have earlier : progress.index parent.vertex < progress.index vertex :=
            (List.pairwise_cons.mp coherent.frames_sorted).1 _ List.mem_cons_self
          have entered : graph.Edge parent.vertex vertex := coherent.layers.edge_of_parent
          rw [Progress.handOver, ← lowlink vertex]
          refine finished.handOver (continues.met _ met) entered ?_ ?_
          · rw [continues.index_eq _ met, continues.index_eq _ parentMet]
            exact earlier
          · rw [continues.index_eq _ parentMet, lowlink]
            exact coherent.orderly.lowlink_le_index _ parentMet

/-! ## Lowlinks are no greater than any bound -/

namespace Preordered

variable {search : Search} {source target between first last : VertexId}

/-- An edge that leads to an index at or behind that of another vertex starts at one that
reaches this vertex, if it was met before it: both lie in what was met from its source. -/
theorem reaches_of_edge_past (preordered : Preordered graph search)
    (sourceMet : search.progress.Met source) (edge : graph.Edge source target)
    (met : search.progress.Met between)
    (late : search.progress.index source ≤ search.progress.index between)
    (early : search.progress.index between ≤ search.progress.index target) :
    graph.Reaches source between := by
  by_cases underWay : source ∈ search.frames.map Frame.vertex
  · exact (preordered.underWay source underWay between met late).reaches
  · obtain ⟨stop, block⟩ := preordered.left source sourceMet underWay
    have within := (block.edge source target sourceMet (Nat.le_refl _) block.index_lt edge).2
    exact (block.reached between met late (by omega)).reaches

/-- A path that starts before a vertex was met, ends at or behind it, and passes closed
vertices only, starts at one that reaches this vertex. Some edge of the path leads past it. -/
theorem reaches_between (preordered : Preordered graph search) (coherent : Coherent graph search)
    (closed : first ∈ search.progress.closedVertices) (path : graph.Reaches first last)
    (met : search.progress.Met between)
    (late : search.progress.index first < search.progress.index between)
    (early : search.progress.index between ≤ search.progress.index last) :
    graph.Reaches first between := by
  have passed : last ∈ search.progress.closedVertices ∧
      (search.progress.index last < search.progress.index between ∨
        graph.Reaches first between) := by
    clear early
    induction path with
    | refl => exact ⟨closed, .inl late⟩
    | @tail source target path edge inductionHypothesis =>
        obtain ⟨sourceClosed, known⟩ := inductionHypothesis
        refine ⟨coherent.settled.edge_closed source target sourceClosed edge, ?_⟩
        rcases known with before | reached
        · have sourceMet := ((coherent.settled.mem_iff source).mp sourceClosed).1
          rcases Nat.lt_or_ge (search.progress.index target) (search.progress.index between) with
            notYet | past
          · exact .inl notYet
          · exact .inr (path.trans
              (preordered.reaches_of_edge_past sourceMet edge met (Nat.le_of_lt before) past))
        · exact .inr reached
  exact passed.2.resolve_left (Nat.not_lt_of_le early)

/-- When a vertex is left, its lowlink is no greater than any of its bounds.

Take an edge of its block that stays in its component. If the source is open, it lies in the
layer of the vertex, and the target is open as well. If the source is closed, so is the target,
and it was met after the vertex: otherwise it would reach the vertex, which is open. -/
theorem lowlink_le (preordered : Preordered graph search) (coherent : Coherent graph search)
    {frame : Frame} {frames : List Frame} (present : search.frames = frame :: frames)
    (exhausted : graph.target? frame.vertex frame.next = none) :
    search.progress.lowlink frame.vertex ∈
      lowerBounds (search.progress.bounds graph frame.vertex) := by
  obtain ⟨progress, _⟩ := search
  obtain rfl : _ = frame :: frames := present
  have met : progress.Met frame.vertex := coherent.met_of_frame List.mem_cons_self
  have ⟨orderly, settled, layers⟩ := coherent
  have below := orderly.lowlink_le_index frame.vertex met
  generalize stacked : progress.stack = stack at layers
  cases layers with
  | @push _ _ above lower rest layer entered =>
      have isOpen : progress.Open frame.vertex := by
        rw [orderly.open_iff, stacked]
        exact List.mem_append_right above List.mem_cons_self
      have notReached : ∀ other ∈ progress.closedVertices, ¬ graph.Reaches other frame.vertex :=
        fun other closed path =>
          ((settled.mem_iff _).mp (path.closed settled.edge_closed closed)).2 isOpen
      rintro number (rfl | ⟨source, target, path, edge, together, indexed⟩)
      · exact below
      · obtain ⟨sourceMet, late⟩ := Progress.since_of_reachesSince met path
        obtain ⟨_, rfl⟩ := Progress.index?_eq_some_iff.mp indexed
        by_cases sourceOpen : progress.Open source
        · have member := orderly.mem_above_of_index_le stacked
            ((orderly.open_iff source).mp sourceOpen) late
          have followed := layer.followed_edge exhausted member edge
          have targetOpen : progress.Open target := by
            by_contra isClosed
            have targetClosed := (settled.mem_iff target).mpr ⟨followed.1, isClosed⟩
            have sourceClosed := together.2.closed settled.edge_closed targetClosed
            exact ((settled.mem_iff source).mp sourceClosed).2 sourceOpen
          exact followed.2 targetOpen
        · have sourceClosed := (settled.mem_iff source).mpr ⟨sourceMet, sourceOpen⟩
          have targetClosed := settled.edge_closed source target sourceClosed edge
          by_contra greater
          exact notReached target targetClosed
            (preordered.reaches_between coherent targetClosed together.2 met (by omega) late)

end Preordered

/-! ## Turn by turn -/

/-- A vertex that is left in a turn was the present one, without edges to follow. The turn
meets nothing and keeps the lowlink of the vertex. -/
theorem Turn.just_left {before after : Search} (turn : Turn graph before after)
    (wellFormed : graph.WellFormed) (coherent : Coherent graph before) {vertex : VertexId}
    (left : after.Left vertex) (underWay : ¬ before.Left vertex) :
    ∃ next frames, before.frames = { vertex, next } :: frames ∧
      graph.target? vertex next = none ∧
      (∀ other, after.progress.Met other → before.progress.Met other) ∧
      after.progress.lowlink vertex = before.progress.lowlink vertex := by
  cases turn with
  | @descend progress frames source target next found fresh =>
      have marked : target < progress.marks.size := coherent.marked_target wellFormed found
      obtain ⟨other, met, outside⟩ := left_cons_iff.mp left
      have known : progress.Met vertex :=
        ((Progress.met_discover marked).mp met).resolve_left other
      exact absurd ⟨known, outside⟩ underWay
  | bound found isOpen => exact absurd ⟨Progress.met_lower.mp left.1, left.2⟩ underWay
  | skip found targetMet isClosed => exact absurd left underWay
  | @leave progress frames source next exhausted =>
      have nothingNew : ∀ other, ((progress.finish graph source).handOver frames
          (progress.lowlink source)).Met other → progress.Met other := fun _ =>
        (coherent.met_leave List.mem_cons_self).mp
      obtain rfl : vertex = source := by
        by_contra different
        exact underWay (left_cons_iff.mpr ⟨different, nothingNew vertex left.1, left.2⟩)
      exact ⟨next, frames, rfl, exhausted, nothingNew,
        coherent.lowlink_leave List.mem_cons_self left.2⟩

/-- What is known of the lowlinks at any time: each is one of its bounds, and that of a vertex
that was left is the least of them. -/
structure Lowest (graph : Graph α) (search : Search) : Prop where
  preordered : Preordered graph search
  attained : Attained graph search.progress
  least : ∀ vertex, search.Left vertex →
    search.progress.lowlink vertex ∈ lowerBounds (search.progress.bounds graph vertex)

namespace Lowest

theorem start (graph : Graph α) :
    Lowest graph { progress := .start graph.size, frames := [] } where
  preordered := .start graph
  attained vertex met := absurd met (Progress.not_met_start graph.size vertex)
  least vertex left := absurd left.1 (Progress.not_met_start graph.size vertex)

/-- A vertex that was left before has all of its bounds. -/
theorem least_of_left {before after : Search} (lowest : Lowest graph before)
    (continues : Continues before.progress after.progress) {vertex : VertexId}
    (left : before.Left vertex)
    (same : after.progress.lowlink vertex = before.progress.lowlink vertex) :
    after.progress.lowlink vertex ∈ lowerBounds (after.progress.bounds graph vertex) := by
  obtain ⟨stop, block⟩ := lowest.preordered.left vertex left.1 left.2
  intro number member
  rw [same]
  exact lowest.least vertex left (block.bounds_subset continues left.1 member)

theorem turn (wellFormed : graph.WellFormed) {before after : Search}
    (lowest : Lowest graph before) (coherent : Coherent graph before)
    (turn : Turn graph before after) : Lowest graph after := by
  have continues := turn.continues wellFormed coherent
  refine ⟨lowest.preordered.turn wellFormed coherent turn,
    coherent.attained_turn wellFormed turn lowest.attained, fun vertex left => ?_⟩
  by_cases leftBefore : before.Left vertex
  · exact lowest.least_of_left continues leftBefore
      (turn.keeps_left wellFormed coherent leftBefore).2
  · obtain ⟨next, frames, present, exhausted, nothingNew, same⟩ :=
      turn.just_left wellFormed coherent left leftBefore
    have met : before.progress.Met vertex := nothingNew vertex left.1
    have sameBounds : after.progress.bounds graph vertex = before.progress.bounds graph vertex := by
      rw [Progress.bounds, Progress.bounds, continues.index?_funext nothingNew,
        continues.index_eq vertex met]
    rw [same, sameBounds]
    exact lowest.preordered.lowlink_le coherent present exhausted

/-- A root that is entered lets everything else be. -/
theorem enter {progress : Progress} {root : Nat}
    (lowest : Lowest graph { progress, frames := [] })
    (coherent : Coherent graph { progress, frames := [] }) (inside : root < graph.size)
    (fresh : ¬ progress.Met root) :
    Lowest graph (Search.enter { progress, frames := [] } root) := by
  have marked : root < progress.marks.size := coherent.orderly.size_marks ▸ inside
  have preordered := lowest.preordered.enter coherent inside fresh rfl
    fun frame first => nomatch first
  refine ⟨preordered, lowest.attained.discover marked fresh, fun vertex left => ?_⟩
  have different : vertex ≠ root := fun same => left.2 (List.mem_singleton.mpr same)
  have known : progress.Met vertex :=
    ((Progress.met_discover marked).mp left.1).resolve_left different
  refine lowest.least_of_left (.discover marked fresh) ⟨known, List.not_mem_nil⟩ ?_
  exact (Progress.lowlink_discover marked vertex).trans (if_neg different)

end Lowest

end Search

namespace Graph

open Search (Lowest)

/-- The traversal ends with the least of its bounds as the lowlink of every vertex. -/
theorem lowest_traverse (wellFormed : graph.WellFormed) :
    Lowest graph { progress := graph.traverse, frames := [] } := by
  apply traverse_invariant wellFormed
  · exact fun _ _ coherent turn lowest => lowest.turn wellFormed coherent turn
  · exact fun root inside _ coherent fresh lowest => lowest.enter coherent inside fresh
  · exact .start graph

theorem isLeast_lowlink (wellFormed : graph.WellFormed) {vertex : Nat}
    (inside : vertex < graph.size) :
    IsLeast (graph.traverse.bounds graph vertex) (graph.traverse.lowlink vertex) := by
  have lowest := lowest_traverse wellFormed
  have met := (traverse_complete wellFormed).2 vertex inside
  exact ⟨lowest.attained vertex met, lowest.least vertex ⟨met, List.not_mem_nil⟩⟩

/-- The lowlink of a vertex is the index of one that it reaches and is reached from. -/
theorem exists_mutual_lowlink (wellFormed : graph.WellFormed) {vertex : Nat}
    (inside : vertex < graph.size) :
    ∃ other, graph.Mutual vertex other ∧
      graph.traverse.index? other = some (graph.traverse.lowlink vertex) := by
  obtain ⟨coherent, allMet⟩ := traverse_complete wellFormed
  have met : graph.traverse.Met vertex := allMet vertex inside
  have below : graph.traverse.lowlink vertex ≤ graph.traverse.index vertex :=
    coherent.orderly.lowlink_le_index vertex met
  rcases (isLeast_lowlink wellFormed inside).1 with
    own | ⟨source, target, path, edge, together, indexed⟩
  · exact ⟨vertex, .refl graph vertex, own ▸ met.index?_eq⟩
  · refine ⟨target, ⟨path.reaches.trans (.ofEdge edge), ?_⟩, indexed⟩
    obtain ⟨targetMet, same⟩ := Progress.index?_eq_some_iff.mp indexed
    obtain ⟨_, late⟩ := Progress.since_of_reachesSince met path
    rw [← same] at below
    rcases Nat.lt_or_eq_of_le below with less | equal
    · have closed : target ∈ graph.traverse.closedVertices :=
        (coherent.mem_closedVertices_iff rfl).mpr targetMet
      exact (lowest_traverse wellFormed).preordered.reaches_between coherent closed together.2 met
        less late
    · have alike : target = vertex :=
        coherent.orderly.index_injective target vertex targetMet met equal
      exact alike ▸ .refl graph target

/-- The lowlink that is read off the graph is that of the traversal. -/
theorem lowlink?_detect {vertex : VertexId} (met : graph.traverse.Met vertex) :
    graph.detect.graph.lowlink? vertex = some (graph.traverse.lowlink vertex) := by
  obtain ⟨mark, marked⟩ := Option.isSome_iff_exists.mp met
  have left : graph.detect.graph.mark? vertex = some mark := marked
  rw [lowlink?, left, Option.map_some, Progress.lowlink, marked, Option.elim_some]

/-- The lowlink that the detection leaves on a vertex is the least of the index of the vertex
and the indices of the targets of edges which stay in their component and start at what the
vertex reaches without passing an index below its own. It is the index of a vertex of the same
component. -/
theorem detect_lowlink (built : graph.Built) :
    ∀ vertex < graph.size, ∃ first low,
      graph.detect.graph.index? vertex = some first ∧
        graph.detect.graph.lowlink? vertex = some low ∧
        IsLeast (graph.lowBounds graph.detect.graph.index? first vertex) low ∧
        ∃ members ∈ graph.popped, vertex ∈ members ∧
          ∃ other ∈ members, graph.detect.graph.index? other = some low := by
  have wellFormed : graph.WellFormed := built.wellFormed
  intro vertex inside
  obtain ⟨coherent, allMet⟩ := traverse_complete wellFormed
  have met := allMet vertex inside
  refine ⟨graph.traverse.index vertex, graph.traverse.lowlink vertex, met.index?_eq,
    lowlink?_detect met, isLeast_lowlink wellFormed inside, ?_⟩
  obtain ⟨other, together, indexed⟩ := exists_mutual_lowlink wellFormed inside
  have otherInside : other < graph.size :=
    coherent.lt_size_of_met (Progress.index?_eq_some_iff.mp indexed).1
  obtain ⟨members, listed, member, otherIn⟩ :=
    (popped_together_iff wellFormed inside otherInside).mpr together
  exact ⟨members, listed, member, other, otherIn, indexed⟩

/-- The second vertex of the ring has the lowlink zero, by its edge back to the first one. The
loop to which it leads as well is a component of its own, and bounds nothing but itself. -/
theorem ringAndLoop_lowlink :
    ringAndLoop.Built ∧ ringAndLoop.detect.graph.lowlink? 1 = some 0 ∧
      IsLeast (ringAndLoop.lowBounds ringAndLoop.detect.graph.index? 1 1) 0 ∧
      ringAndLoop.detect.graph.lowlink? 2 = some 2 ∧
      IsLeast (ringAndLoop.lowBounds ringAndLoop.detect.graph.index? 2 2) 2 := by
  have least : ∀ vertex < ringAndLoop.size, ∀ first low,
      ringAndLoop.detect.graph.index? vertex = some first →
        ringAndLoop.detect.graph.lowlink? vertex = some low →
        IsLeast (ringAndLoop.lowBounds ringAndLoop.detect.graph.index? first vertex) low := by
    intro vertex inside first low indexed lowlinked
    obtain ⟨index, lowlink, sameIndex, sameLowlink, isLeast, _⟩ :=
      detect_lowlink built_ringAndLoop vertex inside
    obtain rfl : first = index := Option.some.inj (indexed.symm.trans sameIndex)
    obtain rfl : low = lowlink := Option.some.inj (lowlinked.symm.trans sameLowlink)
    exact isLeast
  have ring : ringAndLoop.detect.graph.index? 1 = some 1 ∧
      ringAndLoop.detect.graph.lowlink? 1 = some 0 := by decide +kernel
  have loop : ringAndLoop.detect.graph.index? 2 = some 2 ∧
      ringAndLoop.detect.graph.lowlink? 2 = some 2 := by decide +kernel
  exact ⟨built_ringAndLoop, ring.2, least 1 (by decide) 1 0 ring.1 ring.2, loop.2,
    least 2 (by decide) 2 2 loop.1 loop.2⟩

end Graph

end GraphsAndCaches
