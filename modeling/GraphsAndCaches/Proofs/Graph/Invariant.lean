import GraphsAndCaches.Proofs.Graph.Course
import Mathlib.Data.List.Chain

/-!
# What holds whenever a turn may be taken

Before every turn of a traversal, and after the last one, the marks, the stack, the frames and
the closed components fit together. `Search.Invariant` tells how, in terms of these four alone.
It is what a reader of a traversal under way can rely on, while the coherence of a search is
what the turns keep: the layers of the stack say more than can be seen at any one time, and all
that can be seen follows from them.

From one state to any later one nothing that was met is forgotten, its index stays, and its
lowlink may only fall.
-/

namespace GraphsAndCaches

universe u
variable {α : Type u} {graph : Graph α}

/-! ## Definitions -/

/-- The later state continues the earlier one, and no lowlink has risen since. -/
structure Progress.Advances (before after : Progress) : Prop extends
    Progress.Continues before after where
  lowlink_le : ∀ vertex, before.Met vertex → after.lowlink vertex ≤ before.lowlink vertex

/-- The vertex is a member of the component that was closed at this position. -/
def Progress.ClosedAt (progress : Progress) (position : Nat) (vertex : VertexId) : Prop :=
  ∃ component, progress.closed.toList[position]? = some component ∧ vertex ∈ component.members

/-- The marks, the stack, the frames and the closed components fit together. The stack and the
frames are listed from the top. -/
structure Search.Invariant (graph : Graph α) (search : Search) : Prop where
  /-- The vertices that are marked as being on the stack are there, each of them once. -/
  open_iff : ∀ vertex, search.progress.Open vertex ↔ vertex ∈ search.progress.stack
  stack_nodup : search.progress.stack.Nodup
  stack_sorted : search.progress.stack.Pairwise fun upper lower =>
    search.progress.index lower < search.progress.index upper
  /-- The vertices under way are on the stack, in the same order. -/
  frames_sublist : (search.frames.map Frame.vertex).Sublist search.progress.stack
  /-- The edge just before the position of a frame leads to the vertex of the frame above. -/
  frames_chained : search.frames.IsChain fun upper lower => ∃ position,
    lower.next = position + 1 ∧ graph.target? lower.vertex position = some upper.vertex
  /-- The indices of what was met are the numbers below the counter, each of them once. -/
  index_injective : ∀ left right, search.progress.Met left → search.progress.Met right →
    search.progress.index left = search.progress.index right → left = right
  index_iff : ∀ number, number < search.progress.counter ↔
    ∃ vertex, search.progress.Met vertex ∧ search.progress.index vertex = number
  /-- What was met and has left the stack is in one of the closed components. -/
  closed_once : ∀ vertex, search.progress.Met vertex → vertex ∉ search.progress.stack →
    ∃! position, search.progress.ClosedAt position vertex
  /-- No edge leads from there to a vertex that is in none of them. -/
  edge_closed : ∀ vertex, search.progress.Met vertex → vertex ∉ search.progress.stack →
    ∀ target, graph.Edge vertex target → ∃ position, search.progress.ClosedAt position target
  /-- Wherever the stack is cut, the vertex there reaches one under way that is not above it. -/
  reaches_frame : ∀ above vertex below, search.progress.stack = above ++ vertex :: below →
    ∃ frame ∈ search.frames, frame.vertex ∈ vertex :: below ∧
      graph.Reaches vertex frame.vertex
  lowlink_le_index : ∀ vertex, search.progress.Met vertex →
    search.progress.lowlink vertex ≤ search.progress.index vertex

/-! ## What can be seen of the layers -/

namespace Search.Layers

variable {progress : Progress} {frames : List Frame} {stack : List VertexId}

theorem chained (layers : Layers graph progress frames stack) :
    frames.IsChain fun upper lower => ∃ position,
      lower.next = position + 1 ∧ graph.target? lower.vertex position = some upper.vertex := by
  induction layers with
  | empty => exact List.isChain_nil
  | push rest layer entered inductionHypothesis =>
      exact List.isChain_cons.mpr ⟨entered, inductionHypothesis⟩

/-- The vertex at a cut of the stack reaches the frame of its layer. If it is that of the frame
itself, nothing is to be shown, and otherwise it lies above it. -/
theorem reaches_frame (layers : Layers graph progress frames stack)
    {above below : List VertexId} {vertex : VertexId} (cut : stack = above ++ vertex :: below) :
    ∃ frame ∈ frames, frame.vertex ∈ vertex :: below ∧ graph.Reaches vertex frame.vertex := by
  induction layers generalizing above with
  | empty => exact absurd cut (by simp)
  | @push frame frames upper lower rest layer entered inductionHypothesis =>
      -- The cut is either not above the frame's vertex, and then belongs to the layers below, or
      -- it is among what lies over that vertex in the layer.
      rcases List.append_eq_append_iff.mp cut with ⟨middle, outer, inner⟩ | ⟨middle, outer, inner⟩
      · rcases List.cons_eq_append_iff.mp inner with ⟨-, same⟩ | ⟨middle, -, deeper⟩
        · obtain ⟨rfl, rfl⟩ := List.cons.inj same
          exact ⟨frame, List.mem_cons_self, List.mem_cons_self, .refl graph frame.vertex⟩
        · obtain ⟨found, member, notAbove, path⟩ := inductionHypothesis deeper
          exact ⟨found, List.mem_cons_of_mem frame member, notAbove, path⟩
      · rcases List.cons_eq_append_iff.mp inner with ⟨-, same⟩ | ⟨middle, rfl, deeper⟩
        · obtain ⟨rfl, rfl⟩ := List.cons.inj same
          exact ⟨frame, List.mem_cons_self, List.mem_cons_self, .refl graph frame.vertex⟩
        · refine ⟨frame, List.mem_cons_self, ?_, (layer.together vertex ?_).2⟩
          · rw [deeper]
            exact List.mem_cons_of_mem _ (List.mem_append_right _ List.mem_cons_self)
          · rw [outer]
            exact List.mem_append_right above List.mem_cons_self

end Search.Layers

namespace Progress.Settled

variable {progress : Progress} {vertex : VertexId}

/-- A closed vertex is in one of the components, since no two of them share a member. -/
theorem existsUnique_position (settled : progress.Settled graph)
    (closed : vertex ∈ progress.closedVertices) :
    ∃! position, progress.ClosedAt position vertex := by
  obtain ⟨component, listed, member⟩ := List.mem_flatMap.mp closed
  obtain ⟨position, found⟩ := List.getElem?_of_mem listed
  have disjoint := (List.nodup_flatMap.mp settled.nodup).2
  refine ⟨position, ⟨component, found, member⟩, ?_⟩
  rintro other ⟨second, foundThere, again⟩
  obtain ⟨inside, rfl⟩ := List.getElem?_eq_some_iff.mp found
  obtain ⟨otherInside, rfl⟩ := List.getElem?_eq_some_iff.mp foundThere
  rcases Nat.lt_trichotomy other position with before | same | after
  · have apart := List.pairwise_iff_getElem.mp disjoint other position otherInside inside before
    exact absurd member (apart again)
  · exact same
  · have apart := List.pairwise_iff_getElem.mp disjoint position other inside otherInside after
    exact absurd again (apart member)

end Progress.Settled

/-- All that can be seen of a coherent search. -/
theorem Search.Coherent.invariant {search : Search} (coherent : Search.Coherent graph search) :
    Search.Invariant graph search := by
  have ⟨orderly, settled, layers⟩ := coherent
  have closed : ∀ vertex, search.progress.Met vertex → vertex ∉ search.progress.stack →
      vertex ∈ search.progress.closedVertices := by
    intro vertex met offStack
    exact (settled.mem_iff vertex).mpr ⟨met, fun isOpen => offStack ((orderly.open_iff vertex).mp isOpen)⟩
  refine
    { open_iff := orderly.open_iff
      stack_nodup := orderly.stack_nodup
      stack_sorted := orderly.stack_sorted
      frames_sublist := layers.sublist
      frames_chained := layers.chained
      index_injective := orderly.index_injective
      index_iff := ?index_iff
      closed_once := ?closed_once
      edge_closed := ?edge_closed
      reaches_frame := fun above vertex below cut => layers.reaches_frame cut
      lowlink_le_index := orderly.lowlink_le_index }
  case index_iff =>
    intro number
    constructor
    · exact orderly.index_attained number
    · rintro ⟨vertex, met, rfl⟩
      exact orderly.index_lt_counter vertex met
  case closed_once =>
    intro vertex met offStack
    exact settled.existsUnique_position (closed vertex met offStack)
  case edge_closed =>
    intro vertex met offStack target edge
    have targetClosed := settled.edge_closed vertex target (closed vertex met offStack) edge
    exact (settled.existsUnique_position targetClosed).exists

/-! ## From state to state -/

namespace Progress.Advances

variable {progress before middle after : Progress}

theorem refl (progress : Progress) : Advances progress progress where
  toContinues := .refl progress
  lowlink_le _ _ := Nat.le_refl _

theorem trans (first : Advances before middle) (second : Advances middle after) :
    Advances before after where
  toContinues := first.toContinues.trans second.toContinues
  lowlink_le vertex met :=
    Nat.le_trans (second.lowlink_le vertex (first.met vertex met)) (first.lowlink_le vertex met)

theorem discover {vertex : VertexId} (inside : vertex < progress.marks.size)
    (fresh : ¬ progress.Met vertex) : Advances progress (progress.discover vertex) where
  toContinues := .discover inside fresh
  lowlink_le other met := by
    have different : other ≠ vertex := fun same => fresh (same ▸ met)
    rw [lowlink_discover inside, if_neg different]

theorem lower (vertex : VertexId) (bound : Nat) :
    Advances progress (progress.lower vertex bound) where
  toContinues := .lower vertex bound
  lowlink_le other _ := by
    rw [lowlink_lower]
    split
    · exact Nat.min_le_left _ _
    · exact Nat.le_refl _

theorem handOver (frames : List Frame) (bound : Nat) :
    Advances progress (progress.handOver frames bound) := by
  cases frames with
  | nil => exact .refl progress
  | cons parent frames => exact .lower parent.vertex bound

end Progress.Advances

open Progress (Advances)

/-- No turn changes an index or raises a lowlink. -/
theorem Search.Turn.advances {before after : Search} (turn : Search.Turn graph before after)
    (wellFormed : graph.WellFormed) (coherent : Search.Coherent graph before) :
    Advances before.progress after.progress := by
  cases turn with
  | @descend progress frames vertex target next found fresh =>
      exact .discover (coherent.marked_target wellFormed found) fresh
  | bound found isOpen => exact .lower _ _
  | skip found met isClosed => exact .refl _
  | @leave progress frames vertex next exhausted =>
      have stacked : vertex ∈ progress.stack := coherent.stacked_of_frame List.mem_cons_self
      have finished : Advances progress (progress.finish graph vertex) :=
        ⟨coherent.finish_continues List.mem_cons_self, fun other _ =>
          Nat.le_of_eq (Progress.lowlink_finish coherent.orderly stacked other)⟩
      exact finished.trans (.handOver frames _)

namespace Course

/-- Neither does the entry at a root. -/
theorem Sound.advances_next (wellFormed : graph.WellFormed) {before after : Course}
    (sound : Sound graph before) (stepped : before.next graph = some after) :
    Advances before.search.progress after.search.progress := by
  have coherent := sound.coherent
  obtain ⟨⟨progress, frames⟩, roots, turns, log⟩ := before
  cases frames with
  | cons frame frames =>
      obtain rfl := Option.some.inj stepped
      exact (coherent.turn_step (List.cons_ne_nil frame frames)).advances wellFormed coherent
  | nil =>
      cases roots with
      | nil => exact nomatch stepped
      | cons root roots =>
          have inside : root < progress.marks.size :=
            coherent.orderly.size_marks ▸ sound.inside root List.mem_cons_self
          simp only [Course.next] at stepped
          split at stepped
          · obtain rfl := Option.some.inj stepped
            exact .refl progress
          · next fresh =>
              obtain rfl := Option.some.inj stepped
              exact .discover inside fresh

/-- Any number of steps advances the traversal. -/
theorem Sound.advances (wellFormed : graph.WellFormed) {before after : Course}
    (sound : Sound graph before) (reached : before.Reaches graph after) :
    Advances before.search.progress after.search.progress := by
  have kept : Sound graph after ∧ Advances before.search.progress after.search.progress := by
    induction reached with
    | refl => exact ⟨sound, .refl _⟩
    | tail _ stepped inductionHypothesis =>
        obtain ⟨between, advanced⟩ := inductionHypothesis
        exact ⟨between.next wellFormed stepped,
          advanced.trans (between.advances_next wellFormed stepped)⟩
  exact kept.2

end Course

namespace Graph

/-- The loop invariant of the traversal. Of every state on the way from the start to the end of
the traversal, where a turn may be taken or none is left, the marks, the stack, the frames and
the closed components fit together, and from each to any later one indices stay and lowlinks
do not rise. What is closed at the end is what the detection reports, and the marks at the end
are those that it leaves on the graph. -/
theorem detect_invariant (built : graph.Built) :
    ∃ last : Course, last.next graph = none ∧
      last.search = { progress := graph.traverse, frames := [] } ∧
      graph.detect.components.toList = last.search.progress.closed.toList.map graph.valuesOf ∧
      graph.detect.graph = { graph with marks := last.search.progress.marks } ∧
      ∀ course, (Course.start graph).Reaches graph course →
        course.Reaches graph last ∧ Search.Invariant graph course.search ∧
          ∀ later, course.Reaches graph later →
            Advances course.search.progress later.search.progress := by
  have wellFormed : graph.WellFormed := built.wellFormed
  obtain ⟨last, reachedLast, halted, ended⟩ := Course.exists_halted wellFormed
  obtain ⟨components, left⟩ := Course.detect_of_ended ended
  refine ⟨last, halted, ended, components, left, fun course reached => ?_⟩
  have sound : Course.Sound graph course := .reached wellFormed reached
  exact ⟨reached.halted reachedLast halted, sound.coherent.invariant,
    fun later onward => sound.advances wellFormed onward⟩

/-- After seven turns of the sample graph the loop is closed, and the second vertex of the ring
was left without being a root. It stays on the stack, and reaches the one vertex under way. -/
theorem ringAndLoop_invariant :
    ringAndLoop.Built ∧ ∃ course : Course,
      (Course.start ringAndLoop).Reaches ringAndLoop course ∧
        course.search.frames = [{ vertex := 0, next := 1 }] ∧
        course.search.progress.stack = [1, 0] ∧ ringAndLoop.Reaches 1 0 ∧
        ∃! position, course.search.progress.ClosedAt position 2 := by
  obtain ⟨turns, log, onward⟩ := Course.reaches_explore ringAndLoop 7
    { search := Search.enter { progress := .start 4, frames := [] } 0
      roots := [1, 2, 3]
      log := [.discovered 0] }
  have reached : (Course.start ringAndLoop).Reaches ringAndLoop _ := onward.head rfl
  have state :
      let search := Search.explore ringAndLoop 7
        (Search.enter { progress := .start 4, frames := [] } 0)
      search.frames = [{ vertex := 0, next := 1 }] ∧ search.progress.stack = [1, 0] ∧
        search.progress.Met 2 := by
    decide +kernel
  obtain ⟨frames, stack, met⟩ := state
  obtain ⟨last, _, _, _, _, all⟩ := detect_invariant built_ringAndLoop
  have invariant := (all _ reached).2.1
  refine ⟨built_ringAndLoop, _, reached, frames, stack, ?_, ?_⟩
  · obtain ⟨frame, member, _, path⟩ := invariant.reaches_frame [] 1 [0] stack
    obtain rfl : frame = { vertex := 0, next := 1 } := List.mem_singleton.mp (frames ▸ member)
    exact path
  · exact invariant.closed_once 2 met (by rw [stack]; decide)

end Graph

end GraphsAndCaches
