import GraphsAndCaches.Proofs.Graph.Layers
import GraphsAndCaches.Proofs.Graph.Settlement

/-!
# The invariant of a search

A search is coherent when its marks are orderly, its closed components are settled,
and its frames cut the stack into layers. Every turn keeps this, and so does the
entry at a new root.

Two turns carry the argument, both of which leave a vertex. If its lowlink is its own
index, its layer is a strongly connected component: the vertices of the layer reach
one another, and no edge leads from them to a lower vertex of the stack. If its
lowlink is smaller, the vertex reaches an open vertex below it, which in turn reaches
the frame it was met from, and so its layer becomes part of the next one.
-/

namespace GraphsAndCaches.Search

universe u
variable {α : Type u} {graph : Graph α}

/-- Orderly marks, settled components, and a stack in layers. -/
structure Coherent (graph : Graph α) (search : Search) : Prop where
  orderly : search.progress.Orderly graph
  settled : search.progress.Settled graph
  layers : Layers graph search.progress search.frames search.progress.stack

namespace Coherent

/-- Before the first root nothing is marked, stacked or closed. -/
theorem start (graph : Graph α) :
    Coherent graph { progress := .start graph.size, frames := [] } where
  orderly := .start graph
  settled := .start graph
  layers := .empty

/-- The vertices of the frames are on the stack. -/
theorem stacked_of_frame {search : Search} (coherent : Coherent graph search) {frame : Frame}
    (member : frame ∈ search.frames) : frame.vertex ∈ search.progress.stack :=
  coherent.layers.sublist.subset (List.mem_map_of_mem member)

/-- The vertices of the frames were met. -/
theorem met_of_frame {search : Search} (coherent : Coherent graph search) {frame : Frame}
    (member : frame ∈ search.frames) : search.progress.Met frame.vertex :=
  coherent.orderly.met_of_mem_stack (coherent.stacked_of_frame member)

/-- The vertex of a frame splits the stack where it lies. -/
theorem stack_split {search : Search} (coherent : Coherent graph search) {frame : Frame}
    (member : frame ∈ search.frames) :
    ∃ above below, search.progress.stack = above ++ frame.vertex :: below ∧
      frame.vertex ∉ above := by
  obtain ⟨above, below, stacked⟩ := List.append_of_mem (coherent.stacked_of_frame member)
  exact ⟨above, below, stacked, coherent.orderly.not_mem_above stacked⟩

/-- Without frames there is nothing on the stack. -/
theorem stack_eq_nil {search : Search} (coherent : Coherent graph search)
    (finished : search.frames = []) : search.progress.stack = [] := by
  have layers := coherent.layers
  rw [finished] at layers
  generalize search.progress.stack = stack at layers
  cases layers with
  | empty => rfl

/-- When no vertex is under way, none is marked as being on the stack. -/
theorem not_open {search : Search} (coherent : Coherent graph search)
    (finished : search.frames = []) (vertex : VertexId) : ¬ search.progress.Open vertex := by
  rw [coherent.orderly.open_iff, coherent.stack_eq_nil finished]
  exact List.not_mem_nil

/-- Without frames the closed vertices are those that were met. -/
theorem mem_closedVertices_iff {search : Search} (coherent : Coherent graph search)
    (finished : search.frames = []) {vertex : VertexId} :
    vertex ∈ search.progress.closedVertices ↔ search.progress.Met vertex := by
  rw [coherent.settled.mem_iff]
  exact and_iff_left (coherent.not_open finished vertex)

/-- The members of a closed component were met. -/
theorem met_of_closed {search : Search} (coherent : Coherent graph search)
    {component : Component VertexId} (closed : component ∈ search.progress.closed.toList) :
    ∀ vertex ∈ component.members, search.progress.Met vertex := fun vertex member =>
  ((coherent.settled.mem_iff vertex).mp (List.mem_flatMap.mpr ⟨component, closed, member⟩)).1

/-- Only vertices of the graph are met. -/
theorem lt_size_of_met {search : Search} (coherent : Coherent graph search) {vertex : VertexId}
    (met : search.progress.Met vertex) : vertex < graph.size :=
  coherent.orderly.size_marks ▸ met.lt_size

/-- There is a mark for the target of every edge. -/
theorem marked_target (wellFormed : graph.WellFormed) {search : Search}
    (coherent : Coherent graph search) {vertex target : VertexId} {next : Nat}
    (found : graph.target? vertex next = some target) : target < search.progress.marks.size :=
  coherent.orderly.size_marks ▸ wellFormed vertex target (Graph.edge_of_target? found)

/-- Each frame was entered after those below it. -/
theorem frames_sorted {search : Search} (coherent : Coherent graph search) :
    (search.frames.map Frame.vertex).Pairwise fun later earlier =>
      search.progress.index earlier < search.progress.index later :=
  coherent.orderly.stack_sorted.sublist coherent.layers.sublist

/-- All edges of a vertex that is no longer under way were followed. If it is still open, it
lies above the frame of its layer, and if not, no edge leads out of what is closed. -/
theorem met_of_edge {search : Search} (coherent : Coherent graph search)
    {source target : VertexId} (met : search.progress.Met source)
    (notUnderWay : source ∉ search.frames.map Frame.vertex) (edge : graph.Edge source target) :
    search.progress.Met target := by
  by_cases isOpen : search.progress.Open source
  · have stacked := (coherent.orderly.open_iff source).mp isOpen
    exact coherent.layers.met_of_edge stacked notUnderWay edge
  · have closed := (coherent.settled.mem_iff source).mpr ⟨met, isOpen⟩
    have targetClosed := coherent.settled.edge_closed source target closed edge
    exact ((coherent.settled.mem_iff target).mp targetClosed).1

/-- Meeting a vertex leaves the marks of all others alone. -/
theorem keeps_discover {search : Search} (coherent : Coherent graph search)
    {target : VertexId} (inside : target < graph.size) (fresh : ¬ search.progress.Met target) :
    search.progress.Keeps (search.progress.discover target) search.progress.stack := by
  have marked : target < search.progress.marks.size := coherent.orderly.size_marks ▸ inside
  have different : ∀ vertex, search.progress.Met vertex → vertex ≠ target :=
    fun vertex met same => fresh (same ▸ met)
  refine ⟨?_, ?_, ?_⟩
  · intro vertex member
    have met := coherent.orderly.met_of_mem_stack member
    rw [Progress.index_discover marked, if_neg (different vertex met)]
  · intro vertex member
    have met := coherent.orderly.met_of_mem_stack member
    rw [Progress.lowlink_discover marked, if_neg (different vertex met)]
  · intro bound vertex followed
    refine ⟨(Progress.met_discover marked).mpr (.inr followed.1), fun isOpen => ?_⟩
    have other := different vertex followed.1
    rw [Progress.index_discover marked, if_neg other]
    exact followed.2 (((Progress.open_discover marked).mp isOpen).resolve_left other)

/-- A vertex may be entered when it was not met before, and when the first frame has
just followed an edge to it or there is no frame. -/
theorem enter {search : Search} (coherent : Coherent graph search) {target : VertexId}
    (inside : target < graph.size) (fresh : ¬ search.progress.Met target) {frames : List Frame}
    (layers : Layers graph (search.progress.discover target) frames search.progress.stack)
    (entered : EnteredFrom graph frames target) :
    Coherent graph
      { progress := search.progress.discover target
        frames := { vertex := target } :: frames } := by
  have marked : target < search.progress.marks.size := coherent.orderly.size_marks ▸ inside
  refine ⟨coherent.orderly.discover inside fresh, coherent.settled.discover marked fresh, ?_⟩
  refine layers.enter ?_ entered
  rw [Progress.index_discover marked, Progress.lowlink_discover marked, if_pos rfl, if_pos rfl]

/-- An edge to a new vertex. The vertex gets an index above all others, so it bounds
no lowlink. -/
theorem descend (wellFormed : graph.WellFormed) {progress : Progress} {frames : List Frame}
    {vertex target : VertexId} {next : Nat}
    (coherent : Coherent graph { progress, frames := { vertex, next } :: frames })
    (found : graph.target? vertex next = some target) (fresh : ¬ progress.Met target) :
    Coherent graph
      { progress := progress.discover target,
        frames := { vertex := target } :: { vertex, next := next + 1 } :: frames } := by
  have inside : target < graph.size := wellFormed vertex target (Graph.edge_of_target? found)
  have marked : target < progress.marks.size := coherent.orderly.size_marks ▸ inside
  have met : progress.Met vertex := coherent.met_of_frame List.mem_cons_self
  have different : vertex ≠ target := fun same => fresh (same ▸ met)
  have followed : (progress.discover target).Followed
      ((progress.discover target).lowlink vertex) target := by
    refine ⟨(Progress.met_discover marked).mpr (.inl rfl), fun _ => ?_⟩
    rw [Progress.lowlink_discover marked, if_neg different, Progress.index_discover marked,
      if_pos rfl]
    exact Nat.le_trans (coherent.orderly.lowlink_le_index vertex met)
      (Nat.le_of_lt (coherent.orderly.index_lt_counter vertex met))
  have kept := coherent.layers.keep (coherent.keeps_discover inside fresh)
  have layers := kept.advance found followed
  refine coherent.enter inside fresh layers ?_
  intro parent first
  obtain rfl : { vertex, next := next + 1 } = parent := Option.some.inj first
  exact ⟨next, rfl, found⟩

/-- An edge to an open vertex lowers the lowlink to its index. -/
theorem bound {progress : Progress} {frames : List Frame} {vertex target : VertexId} {next : Nat}
    (coherent : Coherent graph { progress, frames := { vertex, next } :: frames })
    (found : graph.target? vertex next = some target) (isOpen : progress.Open target) :
    Coherent graph
      { progress := progress.lower vertex (progress.index target),
        frames := { vertex, next := next + 1 } :: frames } := by
  have orderly := coherent.orderly
  have met : progress.Met vertex := coherent.met_of_frame List.mem_cons_self
  have lowered := coherent.layers.lower orderly.stack_sorted
    (orderly.lowlink_le_index vertex met) ((orderly.open_iff target).mp isOpen)
    (.ofEdge (Graph.edge_of_target? found))
  refine ⟨orderly.lower vertex _, coherent.settled.lower vertex _, lowered.advance found ?_⟩
  refine ⟨Progress.met_lower.mpr isOpen.met, fun _ => ?_⟩
  rw [Progress.lowlink_lower, if_pos rfl, Progress.index_lower]
  exact Nat.min_le_right _ _

/-- An edge to a closed vertex changes nothing but the place in the frame. -/
theorem skip {progress : Progress} {frames : List Frame} {vertex target : VertexId} {next : Nat}
    (coherent : Coherent graph { progress, frames := { vertex, next } :: frames })
    (found : graph.target? vertex next = some target) (met : progress.Met target)
    (isClosed : ¬ progress.Open target) :
    Coherent graph { progress, frames := { vertex, next := next + 1 } :: frames } :=
  ⟨coherent.orderly, coherent.settled,
    coherent.layers.advance found ⟨met, fun isOpen => absurd isOpen isClosed⟩⟩

/-- A bound that is no less than the lowlink of the next frame may be handed to it. -/
theorem handOver_of_le {progress : Progress} {frames : List Frame} {bound : Nat}
    (coherent : Coherent graph { progress, frames })
    (le : ∀ parent ∈ frames.head?, progress.lowlink parent.vertex ≤ bound) :
    Coherent graph { progress := progress.handOver frames bound, frames } := by
  cases frames with
  | nil => exact coherent
  | cons parent frames =>
      have keeps : progress.Keeps (progress.lower parent.vertex bound) progress.stack :=
        Progress.keeps_lower fun _ => le parent rfl
      exact ⟨coherent.orderly.lower parent.vertex bound, coherent.settled.lower parent.vertex bound,
        coherent.layers.keep keeps⟩

/-- The edges of the layer of a root lead to closed vertices or into the layer.

Every edge of the layer was followed. If its target is still open, it was met no
earlier than the root, and so it belongs to the layer. -/
theorem edge_leaving {progress : Progress} {frame : Frame} {above below : List VertexId}
    (orderly : progress.Orderly graph) (settled : progress.Settled graph)
    (layer : Layer graph progress frame above below)
    (stacked : progress.stack = above ++ frame.vertex :: below)
    (exhausted : graph.target? frame.vertex frame.next = none)
    (isRoot : progress.index frame.vertex = progress.lowlink frame.vertex)
    {source target : VertexId} (member : source ∈ above ++ [frame.vertex])
    (edge : graph.Edge source target) :
    target ∈ progress.closedVertices ∨ target ∈ above ++ [frame.vertex] := by
  have followed := layer.followed_edge exhausted member edge
  by_cases isOpen : progress.Open target
  · have later : progress.index frame.vertex ≤ progress.index target :=
      isRoot ▸ followed.2 isOpen
    have stackedTarget : target ∈ progress.stack := (orderly.open_iff target).mp isOpen
    exact .inr (orderly.mem_above_of_index_le stacked stackedTarget later)
  · exact .inl ((settled.mem_iff target).mpr ⟨followed.1, isOpen⟩)

/-- A root closes the component that its layer is. The next frame gets a bound that is
no less than its lowlink, because the root was met after its vertex. -/
theorem close {progress : Progress} {frames : List Frame} {vertex : VertexId} {next : Nat}
    (coherent : Coherent graph { progress, frames := { vertex, next } :: frames })
    (exhausted : graph.target? vertex next = none)
    (isRoot : progress.index vertex = progress.lowlink vertex) :
    Coherent graph
      { progress := (progress.close graph vertex).handOver frames (progress.lowlink vertex),
        frames } := by
  obtain ⟨orderly, settled, layers⟩ := coherent
  generalize stacked : progress.stack = stack at layers
  cases layers with
  | @push _ _ above below rest layer entered =>
      have absent : vertex ∉ above := orderly.not_mem_above stacked
      have together : ∀ member ∈ above ++ [vertex], graph.Mutual vertex member := by
        intro member inside
        rcases List.mem_append.mp inside with upper | last
        · exact layer.together member upper
        · exact List.mem_singleton.mp last ▸ .refl graph vertex
      have closedSettled := settled.close orderly stacked together fun source inside target edge =>
        edge_leaving orderly settled layer stacked exhausted isRoot inside edge
      have keeps : progress.Keeps (progress.close graph vertex) below :=
        Progress.keeps_close stacked absent
      have closedLayers := rest.keep keeps
      rw [← Progress.stack_close stacked absent] at closedLayers
      have closed : Coherent graph { progress := progress.close graph vertex, frames } :=
        ⟨orderly.close stacked, closedSettled, closedLayers⟩
      refine closed.handOver_of_le ?_
      intro parent first
      have parentBelow : parent.vertex ∈ below :=
        rest.sublist.subset (List.mem_map_of_mem (List.mem_of_mem_head? first))
      have parentStacked : parent.vertex ∈ progress.stack := by
        rw [stacked]
        exact List.mem_append_right _ (List.mem_cons_of_mem _ parentBelow)
      have bounded := orderly.lowlink_le_index parent.vertex
        (orderly.met_of_mem_stack parentStacked)
      have earlier := (orderly.index_lt_of_split stacked).2 parent.vertex parentBelow
      rw [Progress.lowlink_close stacked absent]
      exact isRoot ▸ Nat.le_trans bounded (Nat.le_of_lt earlier)

/-- A vertex that is no root hands its layer and its lowlink over.

Its lowlink is the index of an open vertex which it reaches and which was met before
it. That vertex lies below, so there is a next frame, and it reaches that frame. -/
theorem handOver {progress : Progress} {frames : List Frame} {vertex : VertexId} {next : Nat}
    (coherent : Coherent graph { progress, frames := { vertex, next } :: frames })
    (exhausted : graph.target? vertex next = none)
    (notRoot : progress.index vertex ≠ progress.lowlink vertex) :
    Coherent graph
      { progress := progress.handOver frames (progress.lowlink vertex), frames } := by
  obtain ⟨orderly, settled, layers⟩ := coherent
  generalize stacked : progress.stack = stack at layers
  cases layers with
  | @push _ _ above below rest layer entered =>
      obtain ⟨target, atOrBelow, attained, path⟩ := layer.attained
      have lower : target ∈ below := by
        rcases List.mem_cons.mp atOrBelow with rfl | lower
        · exact absurd attained notRoot
        · exact lower
      cases frames with
      | nil =>
          cases rest with
          | empty => exact absurd lower List.not_mem_nil
      | cons parent frames =>
          have sorted := orderly.stack_sorted
          rw [stacked] at sorted
          have sortedBelow := (List.pairwise_cons.mp (List.pairwise_append.mp sorted).2.1)
          have parentBelow : parent.vertex ∈ below :=
            rest.sublist.subset (List.mem_map_of_mem List.mem_cons_self)
          have different : vertex ≠ parent.vertex := fun same =>
            Nat.lt_irrefl _ (same ▸ sortedBelow.1 parent.vertex parentBelow)
          have parentMet : progress.Met parent.vertex := by
            refine orderly.met_of_mem_stack ?_
            rw [stacked]
            exact List.mem_append_right _ (List.mem_cons_of_mem _ parentBelow)
          have back : graph.Reaches vertex parent.vertex := path.trans (rest.reaches_top lower)
          have forth : graph.Reaches parent.vertex target :=
            (Graph.Reaches.ofEdge entered.edge).trans path
          have loweredRest := rest.lower sortedBelow.2
            (orderly.lowlink_le_index parent.vertex parentMet) lower forth
          rw [attained] at loweredRest
          have keptLayer : Layer graph
              (progress.lower parent.vertex (progress.lowlink vertex)) { vertex, next }
              above below := by
            refine layer.keep (fun other _ => Progress.index_lower other) ?_
              fun bound other followed => followed.lower _ _
            rw [Progress.lowlink_lower, if_neg different]
          refine ⟨orderly.lower parent.vertex _, settled.lower parent.vertex _, ?_⟩
          have merged := (Layers.push loweredRest keptLayer entered).merge exhausted (by
            rw [Progress.lowlink_lower, if_pos rfl, Progress.lowlink_lower, if_neg different]
            exact Nat.min_le_right _ _) back
          exact stacked ▸ merged

/-- Every turn of a coherent search leads to a coherent search. -/
theorem turn (wellFormed : graph.WellFormed) {before after : Search}
    (coherent : Coherent graph before) (turn : Turn graph before after) :
    Coherent graph after := by
  cases turn with
  | descend found fresh => exact coherent.descend wellFormed found fresh
  | bound found isOpen => exact coherent.bound found isOpen
  | skip found met isClosed => exact coherent.skip found met isClosed
  | @leave progress frames vertex next exhausted =>
      simp only [Progress.finish]
      split
      · next isRoot => exact coherent.close exhausted isRoot
      · next notRoot => exact coherent.handOver exhausted notRoot

end Coherent

end GraphsAndCaches.Search
