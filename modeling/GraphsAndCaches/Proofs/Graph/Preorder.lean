import GraphsAndCaches.Proofs.Graph.Continuation
import GraphsAndCaches.Proofs.Graph.ReportOrder
import Mathlib.Data.List.Nodup

/-!
# The indices are a depth-first preorder

A vertex is met before all that is met from it, and what is met from it is met without
interruption. So a vertex that was left has a block of indices, its own at the beginning,
and the block consists of what the vertex reaches without passing an index below its own.
A vertex that is under way has no end of its block yet: it so reaches whatever was met
since. To leave a vertex closes its block, because by then all edges of the block have
been followed.

Between two roots the same holds of the traversal as a whole. What was met by then is
what the roots so far reach, it has the indices so far, and its components are those
that were closed so far. As a traversal never takes anything back, these are the first
indices and the first components of the end.
-/

namespace GraphsAndCaches

universe u
variable {α : Type u} {graph : Graph α}

/-- A path, possibly empty, leads from one vertex to the other, and none of the vertices
that it comes to has an index below the first one. -/
def Graph.ReachesSince (graph : Graph α) (indexOf : VertexId → Option Nat) (first : Nat) :
    VertexId → VertexId → Prop :=
  Relation.ReflTransGen fun source target =>
    graph.Edge source target ∧ ∃ index, indexOf target = some index ∧ first ≤ index

/-- The list has all vertices of a kind, each once, and they have the indices from the
first one on without a gap. -/
structure Numbered (indexOf : VertexId → Option Nat) (kind : VertexId → Prop) (first : Nat)
    (vertices : List VertexId) : Prop where
  nodup : vertices.Nodup
  mem_iff : ∀ vertex, vertex ∈ vertices ↔ kind vertex
  indices : (vertices.map indexOf).Perm ((List.range' first vertices.length).map some)

namespace Progress

variable {progress before after : Progress} {vertex : VertexId} {first stop : Nat}

/-- When the vertex was met, if it was. -/
def index? (progress : Progress) (vertex : VertexId) : Option Nat :=
  (progress.mark? vertex).map Mark.index

theorem Met.index?_eq (met : progress.Met vertex) :
    progress.index? vertex = some (progress.index vertex) := by
  simp only [Met] at met
  simp only [index?, index]
  cases marked : progress.mark? vertex with
  | none => simp [marked] at met
  | some mark => rfl

/-- A vertex has an index when it was met, and this one. -/
theorem index?_eq_some_iff {number : Nat} :
    progress.index? vertex = some number ↔
      progress.Met vertex ∧ progress.index vertex = number := by
  simp only [index?, Met, index]
  cases progress.mark? vertex <;> simp

/-- To have an index from the first one on is to have been met since it was given. -/
theorem exists_index?_iff :
    (∃ index, progress.index? vertex = some index ∧ first ≤ index) ↔
      progress.Met vertex ∧ first ≤ progress.index vertex := by
  simp only [index?_eq_some_iff, and_assoc, exists_and_left, exists_eq_left']

/-- Vertices that are told by a range of given indices have exactly these indices. -/
theorem Orderly.numbered (orderly : progress.Orderly graph) {kind : VertexId → Prop}
    {vertices : List VertexId} (nodup : vertices.Nodup)
    (mem_iff : ∀ vertex, vertex ∈ vertices ↔ kind vertex)
    (counted : stop ≤ progress.counter)
    (kind_iff : ∀ vertex, kind vertex ↔
      progress.Met vertex ∧ first ≤ progress.index vertex ∧ progress.index vertex < stop) :
    Numbered progress.index? kind first vertices := by
  have listed : ∀ vertex, vertex ∈ vertices ↔
      progress.Met vertex ∧ first ≤ progress.index vertex ∧ progress.index vertex < stop :=
    fun vertex => (mem_iff vertex).trans (kind_iff vertex)
  have distinct : (vertices.map progress.index).Nodup := by
    refine nodup.map_on fun left leftIn right rightIn same => ?_
    exact orderly.index_injective left right ((listed left).mp leftIn).1
      ((listed right).mp rightIn).1 same
  have numbers : (vertices.map progress.index).Perm (List.range' first (stop - first)) := by
    rw [List.perm_ext_iff_of_nodup distinct List.nodup_range']
    intro number
    rw [List.mem_map, List.mem_range'_1]
    constructor
    · rintro ⟨vertex, member, rfl⟩
      obtain ⟨_, late, early⟩ := (listed vertex).mp member
      omega
    · rintro ⟨late, early⟩
      obtain ⟨vertex, met, rfl⟩ := orderly.index_attained number (by omega)
      exact ⟨vertex, (listed vertex).mpr ⟨met, late, by omega⟩, rfl⟩
  have count : vertices.length = stop - first := by
    simpa using numbers.length_eq
  have indexed : vertices.map progress.index? = (vertices.map progress.index).map some := by
    rw [List.map_map]
    exact List.map_congr_left fun vertex member => ((listed vertex).mp member).1.index?_eq
  refine ⟨nodup, mem_iff, ?_⟩
  rw [indexed, count]
  exact numbers.map some

/-- Paths among what was met since an index stay such paths. -/
theorem Continues.reachesSince (continues : Continues before after) {source target : VertexId}
    (path : graph.ReachesSince before.index? first source target) :
    graph.ReachesSince after.index? first source target := by
  refine Relation.ReflTransGen.mono ?_ source target path
  rintro _ next ⟨edge, since⟩
  obtain ⟨met, late⟩ := exists_index?_iff.mp since
  refine ⟨edge, exists_index?_iff.mpr ⟨continues.met next met, ?_⟩⟩
  rwa [continues.index_eq next met]

/-- The indices from that of a vertex up to the stop are those of its block: the vertex
reaches all of it without leaving it, and edges out of it lead to smaller indices only. -/
structure Block (graph : Graph α) (progress : Progress) (vertex : VertexId) (stop : Nat) :
    Prop where
  index_lt : progress.index vertex < stop
  counted : stop ≤ progress.counter
  reached : ∀ other, progress.Met other → progress.index vertex ≤ progress.index other →
    progress.index other < stop →
      graph.ReachesSince progress.index? (progress.index vertex) vertex other
  edge : ∀ source target, progress.Met source → progress.index vertex ≤ progress.index source →
    progress.index source < stop → graph.Edge source target →
      progress.Met target ∧ progress.index target < stop

namespace Block

/-- A block depends on the indices up to its stop, and these stay. -/
theorem continues (block : Block graph before vertex stop) (continues : Continues before after)
    (met : before.Met vertex) : Block graph after vertex stop := by
  have same : after.index vertex = before.index vertex := continues.index_eq vertex met
  have known : ∀ other, after.Met other → after.index other < stop → before.Met other :=
    fun other otherMet early =>
      continues.met_of_index_lt otherMet (Nat.lt_of_lt_of_le early block.counted)
  refine ⟨same ▸ block.index_lt, Nat.le_trans block.counted continues.counter_le, ?_, ?_⟩
  · intro other otherMet late early
    have otherKnown := known other otherMet early
    rw [same]
    rw [same, continues.index_eq other otherKnown] at late
    rw [continues.index_eq other otherKnown] at early
    exact continues.reachesSince (block.reached other otherKnown late early)
  · intro source target sourceMet late early edge
    have sourceKnown := known source sourceMet early
    rw [same, continues.index_eq source sourceKnown] at late
    rw [continues.index_eq source sourceKnown] at early
    obtain ⟨targetKnown, targetEarly⟩ := block.edge source target sourceKnown late early edge
    refine ⟨continues.met target targetKnown, ?_⟩
    rwa [continues.index_eq target targetKnown]

/-- The block of a vertex is what it reaches without passing an index below its own. -/
theorem reachesSince_iff (block : Block graph progress vertex stop) (met : progress.Met vertex)
    (other : VertexId) :
    graph.ReachesSince progress.index? (progress.index vertex) vertex other ↔
      progress.Met other ∧ progress.index vertex ≤ progress.index other ∧
        progress.index other < stop := by
  constructor
  · intro path
    induction path with
    | refl => exact ⟨met, Nat.le_refl _, block.index_lt⟩
    | tail _ step inductionHypothesis =>
        obtain ⟨sourceMet, late, early⟩ := inductionHypothesis
        obtain ⟨targetMet, targetEarly⟩ := block.edge _ _ sourceMet late early step.1
        exact ⟨targetMet, (exists_index?_iff.mp step.2).2, targetEarly⟩
  · rintro ⟨otherMet, late, early⟩
    exact block.reached other otherMet late early

end Block

end Progress

namespace Search

open Progress (Continues Block)

/-- A vertex under way reaches whatever was met since, and one that was left has a block. -/
structure Preordered (graph : Graph α) (search : Search) : Prop where
  underWay : ∀ vertex ∈ search.frames.map Frame.vertex, ∀ other, search.progress.Met other →
    search.progress.index vertex ≤ search.progress.index other →
      graph.ReachesSince search.progress.index? (search.progress.index vertex) vertex other
  left : ∀ vertex, search.progress.Met vertex → vertex ∉ search.frames.map Frame.vertex →
    ∃ stop, Block graph search.progress vertex stop

namespace Preordered

theorem start (graph : Graph α) :
    Preordered graph { progress := .start graph.size, frames := [] } where
  underWay _ member := nomatch member
  left vertex met := absurd met (Progress.not_met_start graph.size vertex)

/-- Where no vertex is met or left, nothing has to be shown. -/
theorem keep {before after : Progress} {frames framesAfter : List Frame}
    (preordered : Preordered graph { progress := before, frames })
    (coherent : Coherent graph { progress := before, frames })
    (continues : Continues before after)
    (nothingNew : ∀ vertex, after.Met vertex → before.Met vertex)
    (sameVertices : framesAfter.map Frame.vertex = frames.map Frame.vertex) :
    Preordered graph { progress := after, frames := framesAfter } := by
  constructor
  · intro vertex member other otherMet late
    rw [sameVertices] at member
    obtain ⟨frame, frameIn, rfl⟩ := List.mem_map.mp member
    have known : before.Met frame.vertex := coherent.met_of_frame frameIn
    have otherKnown := nothingNew other otherMet
    dsimp only at late ⊢
    rw [continues.index_eq _ known] at late ⊢
    rw [continues.index_eq _ otherKnown] at late
    exact continues.reachesSince (preordered.underWay _ member other otherKnown late)
  · intro vertex met outside
    rw [sameVertices] at outside
    obtain ⟨stop, block⟩ := preordered.left vertex (nothingNew vertex met) outside
    exact ⟨stop, block.continues continues (nothingNew vertex met)⟩

/-- The vertices under way reach the first of them, which was met last of them all. -/
theorem reachesSince_head {progress : Progress} {top : Frame} {rest : List Frame}
    (preordered : Preordered graph { progress, frames := top :: rest })
    (coherent : Coherent graph { progress, frames := top :: rest })
    {frame : Frame} (member : frame ∈ top :: rest) :
    graph.ReachesSince progress.index? (progress.index frame.vertex) frame.vertex top.vertex := by
  have since : progress.index frame.vertex ≤ progress.index top.vertex := by
    rcases List.mem_cons.mp member with rfl | below
    · exact Nat.le_refl _
    · exact Nat.le_of_lt ((List.pairwise_cons.mp coherent.frames_sorted).1 _
        (List.mem_map_of_mem below))
  exact preordered.underWay _ (List.mem_map_of_mem member) top.vertex
    (coherent.met_of_frame List.mem_cons_self) since

/-- A vertex that is entered from the first one under way is reached by all of them. -/
theorem enter {progress : Progress} {frames framesAfter : List Frame} {target : VertexId}
    (preordered : Preordered graph { progress, frames })
    (coherent : Coherent graph { progress, frames })
    (inside : target < graph.size) (fresh : ¬ progress.Met target)
    (sameVertices : framesAfter.map Frame.vertex = frames.map Frame.vertex)
    (entered : ∀ frame ∈ frames.head?, graph.Edge frame.vertex target) :
    Preordered graph
      { progress := progress.discover target
        frames := { vertex := target } :: framesAfter } := by
  have marked : target < progress.marks.size := coherent.orderly.size_marks ▸ inside
  have continues : Continues progress (progress.discover target) := .discover marked fresh
  have met_iff : ∀ {vertex}, (progress.discover target).Met vertex ↔
      vertex = target ∨ progress.Met vertex := Progress.met_discover marked
  constructor
  · intro vertex member other otherMet late
    rw [List.map_cons, sameVertices] at member
    dsimp only at otherMet late ⊢
    rcases List.mem_cons.mp member with rfl | member
    · -- nothing was met after the new vertex
      rcases met_iff.mp otherMet with rfl | known
      · exact .refl
      · have early := coherent.orderly.index_lt_counter other known
        rw [Progress.index_discover marked, if_pos rfl, continues.index_eq other known] at late
        exact absurd early (Nat.not_lt_of_le late)
    · obtain ⟨frame, frameIn, rfl⟩ := List.mem_map.mp member
      rw [continues.index_eq _ (coherent.met_of_frame frameIn)] at late ⊢
      rcases met_iff.mp otherMet with rfl | otherKnown
      · -- along the frames to the first one, and from there to the new vertex
        obtain ⟨top, rest, rfl⟩ := List.exists_cons_of_ne_nil (List.ne_nil_of_mem frameIn)
        have path := continues.reachesSince (preordered.reachesSince_head coherent frameIn)
        exact path.tail ⟨entered top rfl, Progress.exists_index?_iff.mpr ⟨otherMet, late⟩⟩
      · rw [continues.index_eq other otherKnown] at late
        exact continues.reachesSince (preordered.underWay _ member other otherKnown late)
  · intro vertex met outside
    rw [List.map_cons, sameVertices, List.mem_cons, not_or] at outside
    have known : progress.Met vertex := (met_iff.mp met).resolve_left outside.1
    obtain ⟨stop, block⟩ := preordered.left vertex known outside.2
    exact ⟨stop, block.continues continues known⟩

/-- To leave a vertex gives it a block, with all that was met since. What is under way
below it was met earlier, so all edges of the block were followed. -/
theorem leave {progress : Progress} {frame : Frame} {frames : List Frame}
    (preordered : Preordered graph { progress, frames := frame :: frames })
    (coherent : Coherent graph { progress, frames }) (met : progress.Met frame.vertex)
    (latest : ∀ vertex ∈ frames.map Frame.vertex,
      progress.index vertex < progress.index frame.vertex) :
    Preordered graph { progress, frames } := by
  constructor
  · exact fun vertex member => preordered.underWay vertex (List.mem_cons_of_mem _ member)
  · intro vertex vertexMet outside
    by_cases same : vertex = frame.vertex
    · subst same
      refine ⟨progress.counter, ?_, Nat.le_refl _, ?_, ?_⟩
      · exact coherent.orderly.index_lt_counter _ met
      · intro other otherMet late _
        exact preordered.underWay _ List.mem_cons_self other otherMet late
      · intro source target sourceMet late _ edge
        have notUnderWay : source ∉ frames.map Frame.vertex :=
          fun member => Nat.not_lt_of_le late (latest source member)
        have targetMet := coherent.met_of_edge sourceMet notUnderWay edge
        exact ⟨targetMet, coherent.orderly.index_lt_counter target targetMet⟩
    · refine preordered.left vertex vertexMet ?_
      rw [List.map_cons, List.mem_cons, not_or]
      exact ⟨same, outside⟩

/-- Every turn of a search keeps the preorder. -/
theorem turn (wellFormed : graph.WellFormed) {before after : Search}
    (preordered : Preordered graph before) (coherent : Coherent graph before)
    (turn : Turn graph before after) : Preordered graph after := by
  have continues := turn.continues wellFormed coherent
  have coherentAfter := coherent.turn wellFormed turn
  cases turn with
  | @descend progress frames vertex target next found fresh =>
      have edge : graph.Edge vertex target := Graph.edge_of_target? found
      refine preordered.enter coherent (wellFormed vertex target edge) fresh rfl ?_
      intro frame first
      obtain rfl : { vertex, next } = frame := Option.some.inj first
      exact edge
  | bound found isOpen =>
      exact preordered.keep coherent continues (fun _ => Progress.met_lower.mp) rfl
  | skip found met isClosed => exact preordered.keep coherent continues (fun _ met => met) rfl
  | @leave progress frames vertex next exhausted =>
      have kept := preordered.keep coherent continues
        (fun _ => (coherent.met_leave List.mem_cons_self).mp) rfl
      have known : progress.Met vertex := coherent.met_of_frame List.mem_cons_self
      have sorted := (List.pairwise_cons.mp coherent.frames_sorted).1
      refine kept.leave coherentAfter (continues.met vertex known) ?_
      intro other member
      obtain ⟨frame, frameIn, rfl⟩ := List.mem_map.mp member
      have otherKnown : progress.Met frame.vertex :=
        coherent.met_of_frame (List.mem_cons_of_mem _ frameIn)
      rw [continues.index_eq _ known, continues.index_eq _ otherKnown]
      exact sorted _ member

end Preordered

end Search

namespace Graph

open Search (Coherent Preordered)

/-- A traversal gives every vertex its block. -/
theorem preordered_traverse (wellFormed : graph.WellFormed) :
    Preordered graph { progress := graph.traverse, frames := [] } := by
  apply traverse_invariant wellFormed
  · exact fun _ _ coherent turn known => known.turn wellFormed coherent turn
  · intro root inside between coherent fresh known
    exact known.enter coherent inside fresh rfl fun frame first => nomatch first
  · exact .start graph

/-- The vertices of a traversal after which nothing is under way, each with its block. -/
theorem exists_block {progress : Progress} {vertex : VertexId}
    (preordered : Preordered graph { progress, frames := [] })
    (coherent : Coherent graph { progress, frames := [] }) (met : progress.Met vertex) :
    ∃ block, Numbered progress.index?
      (graph.ReachesSince progress.index? (progress.index vertex) vertex)
      (progress.index vertex) block := by
  obtain ⟨stop, isBlock⟩ := preordered.left vertex met List.not_mem_nil
  have kind_iff := isBlock.reachesSince_iff met
  refine ⟨graph.vertexIds.filter fun other => decide (progress.Met other ∧
    progress.index vertex ≤ progress.index other ∧ progress.index other < stop), ?_⟩
  refine coherent.orderly.numbered (graph.nodup_vertexIds.filter _) ?_ isBlock.counted kind_iff
  intro other
  rw [List.mem_filter, mem_vertexIds, decide_eq_true_iff, kind_iff]
  exact and_iff_right_of_imp fun within => coherent.lt_size_of_met within.1

/-- The detection numbers the vertices from zero. -/
theorem numbered_vertexIds (wellFormed : graph.WellFormed) :
    Numbered graph.detect.graph.index? (· < graph.size) 0 graph.vertexIds := by
  obtain ⟨coherent, allMet⟩ := traverse_complete wellFormed
  have orderly := coherent.orderly
  refine orderly.numbered graph.nodup_vertexIds (fun _ => mem_vertexIds) (Nat.le_refl _) ?_
  intro vertex
  constructor
  · intro inside
    have met := allMet vertex inside
    exact ⟨met, Nat.zero_le _, orderly.index_lt_counter vertex met⟩
  · exact fun known => coherent.lt_size_of_met known.1

/-- The indices are the numbers below that of the vertices, each once. -/
theorem indices_perm (wellFormed : graph.WellFormed) :
    (graph.vertexIds.map graph.detect.graph.index?).Perm ((List.range graph.size).map some) := by
  have indices := (numbered_vertexIds wellFormed).indices
  rwa [vertexIds, List.length_range, ← List.range_eq_range'] at indices

/-- What was closed in a state that the traversal continues is popped first. -/
theorem flatten_take_popped {between : Progress} (continues : between.Continues graph.traverse) :
    (graph.popped.take between.closed.toList.length).flatten = between.closedVertices := by
  obtain ⟨rest, closed⟩ := continues.closed
  rw [popped, ← closed, ← List.map_take, List.take_left, Progress.closedVertices,
    List.flatMap_def]

/-- What the first roots reach has the first indices and is closed first. -/
theorem exists_first_components (wellFormed : graph.WellFormed) {last : Nat}
    (inside : last < graph.size) :
    ∃ count, Numbered graph.traverse.index?
      (fun vertex => ∃ root ≤ last, graph.Reaches root vertex) 0
      (graph.popped.take count).flatten := by
  have within : last + 1 ≤ graph.size := Nat.succ_le_of_lt inside
  have coherent := coherent_visitFirst wellFormed within
  have continues := visitFirst_continues wellFormed within
  have met_iff : ∀ vertex, (graph.visitFirst (last + 1)).Met vertex ↔
      ∃ root ≤ last, graph.Reaches root vertex := by
    simp only [met_visitFirst_iff wellFormed within, Nat.lt_succ_iff, implies_true]
  refine ⟨(graph.visitFirst (last + 1)).closed.toList.length, ?_⟩
  rw [flatten_take_popped continues]
  have orderly := (traverse_complete wellFormed).1.orderly
  refine orderly.numbered coherent.settled.nodup ?_ continues.counter_le ?_
  · intro vertex
    rw [coherent.mem_closedVertices_iff rfl, met_iff]
  · intro vertex
    rw [← met_iff, continues.met_iff coherent.orderly]
    simp only [Nat.zero_le, true_and]

/-- The indices that the detection leaves are a depth-first preorder, over roots in the
order of the vertices. What the vertices up to any one of them reach has the indices from
zero on, and its components are the first ones that are reported. And what a vertex reaches
without passing an index below its own has the indices from its own on. -/
theorem detect_preorder (built : graph.Built) :
    ((graph.detect.components.toList.map fun component => component.members.map some) =
        graph.popped.map fun members => members.map graph.value?) ∧
      (∀ last < graph.size, ∃ count, Numbered graph.detect.graph.index?
        (fun vertex => ∃ root ≤ last, graph.Reaches root vertex) 0
        (graph.popped.take count).flatten) ∧
      ∀ vertex < graph.size, ∃ first block,
        graph.detect.graph.index? vertex = some first ∧
          Numbered graph.detect.graph.index?
            (graph.ReachesSince graph.detect.graph.index? first vertex) first block := by
  have wellFormed : graph.WellFormed := built.wellFormed
  obtain ⟨coherent, allMet⟩ := traverse_complete wellFormed
  have preordered := preordered_traverse wellFormed
  refine ⟨members_detect wellFormed, ?_, ?_⟩
  · exact fun last inside => exists_first_components wellFormed inside
  · intro vertex inside
    have met := allMet vertex inside
    obtain ⟨block, numbered⟩ := exists_block preordered coherent met
    exact ⟨graph.traverse.index vertex, block, met.index?_eq, numbered⟩

/-- The second vertex of the ring has an edge back to the first one, but that one was met
before it and is no part of its block. The vertex with the loop is. -/
theorem ringAndLoop_preorder :
    ringAndLoop.Built ∧ ringAndLoop.Edge 1 0 ∧
      ringAndLoop.detect.graph.index? 1 = some 1 ∧
      ∃ block, Numbered ringAndLoop.detect.graph.index?
        (ringAndLoop.ReachesSince ringAndLoop.detect.graph.index? 1 1) 1 block ∧
        0 ∉ block ∧ 2 ∈ block := by
  have indexOf : ∀ vertex ≤ 2, ringAndLoop.detect.graph.index? vertex = some vertex := by
    decide +kernel
  obtain ⟨first, block, indexed, numbered⟩ :=
    (detect_preorder built_ringAndLoop).2.2 1 (by decide)
  obtain rfl : first = 1 := Option.some.inj (indexed.symm.trans (indexOf 1 (by decide)))
  refine ⟨built_ringAndLoop, by decide, indexed, block, numbered, ?_, ?_⟩
  · intro member
    have listed := numbered.indices.mem_iff.mp (List.mem_map_of_mem member)
    obtain ⟨index, inRange, same⟩ := List.mem_map.mp listed
    obtain rfl : index = 0 := Option.some.inj (same.trans (indexOf 0 (by decide)))
    exact absurd (List.mem_range'_1.mp inRange).1 (by decide)
  · have edge : ringAndLoop.Edge 1 2 := by decide
    exact (numbered.mem_iff 2).mpr (.single ⟨edge, 2, indexOf 2 (by decide), by decide⟩)

end Graph

end GraphsAndCaches
