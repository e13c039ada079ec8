import GraphsAndCaches.Proofs.Graph.Continuation
import GraphsAndCaches.Proofs.Graph.Partition
import GraphsAndCaches.Proofs.Graph.Steps
import Mathlib.Data.List.Nodup

/-!
# The course of a traversal

The machine that takes one step after another does halt, and then it has come to the
traversal: the bound on the turns is never what ends a search. By then every vertex was
discovered once and finished once, and every edge was followed once, by its position, so that
parallel edges count each for itself. On the way no step reads or changes anything that is no
vertex of the graph, a vertex that is finished is found on the stack, no component is closed
without members, and whenever no frames are left the stack is empty as well.
-/

namespace GraphsAndCaches

universe u
variable {α : Type u} {graph : Graph α}

/-- What the traversal relies on in every state. -/
structure Course.Safe (graph : Graph α) (course : Course) : Prop where
  inRange : ∀ vertex ∈ course.accesses graph, vertex < graph.size
  /-- The next step changes the marks of those vertices alone. -/
  unchanged : ∀ after, course.next graph = some after → ∀ vertex ∉ course.accesses graph,
    after.search.progress.mark? vertex = course.search.progress.mark? vertex
  /-- Nor does it depend on the edges or the marks of any other vertex. -/
  unread : ∀ (otherGraph : Graph α) (other : Course),
    (∀ vertex ∈ course.accesses graph, graph.targets vertex = otherGraph.targets vertex) →
      AgreeOn (course.accesses graph) course other →
        Option.Rel (AgreeOn (course.accesses graph)) (course.next graph) (other.next otherGraph)
  marked : course.search.progress.marks.size = graph.size
  /-- A vertex under way will be found on the stack. -/
  stacked : ∀ frame ∈ course.search.frames, frame.vertex ∈ course.search.progress.stack
  /-- A search that has ended leaves nothing on the stack. -/
  emptied : course.search.frames = [] → course.search.progress.stack = []
  /-- Components have members. -/
  nonempty : ∀ component ∈ course.search.progress.closed.toList, component.members ≠ []

/-! ## What the log tells -/

namespace Search

/-- How many edges of a vertex have been followed: those before the position of its frame, or
all of them when it was left. -/
def followed (graph : Graph α) (progress : Progress) : List Frame → VertexId → Nat
  | [], vertex => if progress.Met vertex then (graph.targets vertex).length else 0
  | frame :: frames, vertex =>
      if vertex = frame.vertex then frame.next else followed graph progress frames vertex

theorem followed_of_not_mem {progress : Progress} {frames : List Frame} {vertex : VertexId}
    (outside : vertex ∉ frames.map Frame.vertex) :
    followed graph progress frames vertex =
      if progress.Met vertex then (graph.targets vertex).length else 0 := by
  induction frames with
  | nil => rfl
  | cons frame frames inductionHypothesis =>
      rw [List.map_cons, List.mem_cons, not_or] at outside
      rw [followed, if_neg outside.1, inductionHypothesis outside.2]

/-- The number depends on the marks only through what was met. -/
theorem followed_congr {before after : Progress} {vertex : VertexId}
    (same : after.Met vertex ↔ before.Met vertex) (frames : List Frame) :
    followed graph after frames vertex = followed graph before frames vertex := by
  induction frames with
  | nil => simp only [followed, same]
  | cons frame frames inductionHypothesis => simp only [followed, inductionHypothesis]

/-- The log has every event once: the discovery of what was met, the edges that were followed,
and the end of what was left. -/
structure Logged (graph : Graph α) (search : Search) (log : List Event) : Prop where
  nodup : log.Nodup
  discovered : ∀ vertex, .discovered vertex ∈ log ↔ search.progress.Met vertex
  followed : ∀ vertex position, .followed vertex position ∈ log ↔
    position < Search.followed graph search.progress search.frames vertex
  finished : ∀ vertex, .finished vertex ∈ log ↔ search.Left vertex
  next_le : ∀ frame ∈ search.frames, frame.next ≤ (graph.targets frame.vertex).length

namespace Logged

variable {progress : Progress} {frames : List Frame} {vertex : VertexId} {position : Nat}
  {log : List Event}

theorem start (graph : Graph α) :
    Logged graph { progress := .start graph.size, frames := [] } [] where
  nodup := List.nodup_nil
  discovered vertex := by simp [Progress.not_met_start]
  followed vertex position := by simp [Search.followed, Progress.not_met_start]
  finished vertex := by simp [Left, Progress.not_met_start]
  next_le _ member := nomatch member

/-- What was met decides what the log has to tell. -/
theorem congr {after : Progress} (logged : Logged graph { progress, frames } log)
    (same : ∀ vertex, after.Met vertex ↔ progress.Met vertex) :
    Logged graph { progress := after, frames } log where
  nodup := logged.nodup
  discovered vertex := (logged.discovered vertex).trans (same vertex).symm
  followed vertex position := by
    rw [logged.followed, followed_congr (same vertex)]
  finished vertex := (logged.finished vertex).trans (and_congr_left' (same vertex).symm)
  next_le := logged.next_le

/-- A new vertex is discovered, and none of its edges has been followed yet. -/
theorem enter (logged : Logged graph { progress, frames } log)
    (inside : vertex < progress.marks.size) (fresh : ¬ progress.Met vertex)
    (outside : vertex ∉ frames.map Frame.vertex) :
    Logged graph { progress := progress.discover vertex, frames := { vertex } :: frames }
      (log ++ [.discovered vertex]) where
  nodup := by
    rw [← List.concat_eq_append, List.nodup_concat]
    exact ⟨fun member => fresh ((logged.discovered vertex).mp member), logged.nodup⟩
  discovered other := by
    simp [logged.discovered, Progress.met_discover inside, or_comm]
  followed other position := by
    have before := logged.followed other position
    rw [List.mem_append, List.mem_singleton, or_iff_left nofun, before, Search.followed]
    dsimp only
    by_cases same : other = vertex
    · subst same
      simp [followed_of_not_mem outside, fresh]
    · have known : (progress.discover vertex).Met other ↔ progress.Met other := by
        simp [Progress.met_discover inside, same]
      rw [if_neg same, followed_congr known]
  finished other := by
    have before := logged.finished other
    rw [List.mem_append, List.mem_singleton, or_iff_left nofun, before, left_cons_iff]
    by_cases same : other = vertex
    · subst same
      simp [Left, fresh]
    · simp [Left, Progress.met_discover inside, same]
  next_le frame member := by
    rcases List.mem_cons.mp member with rfl | old
    · exact Nat.zero_le _
    · exact logged.next_le frame old

/-- The next edge of the present vertex is followed. -/
theorem advance {target : VertexId} {next : Nat}
    (logged : Logged graph { progress, frames := { vertex, next } :: frames } log)
    (found : graph.target? vertex next = some target) :
    Logged graph { progress, frames := { vertex, next := next + 1 } :: frames }
      (log ++ [.followed vertex next]) where
  nodup := by
    rw [← List.concat_eq_append, List.nodup_concat]
    refine ⟨fun member => ?_, logged.nodup⟩
    have before := (logged.followed vertex next).mp member
    rw [Search.followed, if_pos rfl] at before
    exact Nat.lt_irrefl next before
  discovered other := by
    rw [List.mem_append, List.mem_singleton, or_iff_left nofun]
    exact logged.discovered other
  followed other position := by
    have before := logged.followed other position
    rw [List.mem_append, List.mem_singleton, before, Search.followed, Search.followed]
    by_cases same : other = vertex
    · subst same
      simp only [if_true, Event.followed.injEq, true_and]
      omega
    · simp [same]
  finished other := by
    rw [List.mem_append, List.mem_singleton, or_iff_left nofun]
    exact logged.finished other
  next_le frame member := by
    rcases List.mem_cons.mp member with rfl | old
    · by_contra beyond
      have none := Graph.target?_eq_none_iff.mpr (Nat.le_of_lt_succ (Nat.lt_of_not_le beyond))
      exact nomatch found.symm.trans none
    · exact logged.next_le frame (List.mem_cons_of_mem _ old)

/-- The present vertex is finished. All of its edges have been followed by then. -/
theorem leave {next : Nat}
    (logged : Logged graph { progress, frames := { vertex, next } :: frames } log)
    (exhausted : graph.target? vertex next = none) (met : progress.Met vertex)
    (outside : vertex ∉ frames.map Frame.vertex) :
    Logged graph { progress, frames } (log ++ [.finished vertex]) where
  nodup := by
    rw [← List.concat_eq_append, List.nodup_concat]
    refine ⟨fun member => ?_, logged.nodup⟩
    exact (left_cons_iff.mp ((logged.finished vertex).mp member)).1 rfl
  discovered other := by
    rw [List.mem_append, List.mem_singleton, or_iff_left nofun]
    exact logged.discovered other
  followed other position := by
    have before := logged.followed other position
    rw [List.mem_append, List.mem_singleton, or_iff_left nofun, before, Search.followed]
    by_cases same : other = vertex
    · subst same
      have all : next = (graph.targets other).length :=
        Nat.le_antisymm (logged.next_le _ List.mem_cons_self)
          (Graph.target?_eq_none_iff.mp exhausted)
      rw [if_pos rfl, followed_of_not_mem outside, if_pos met, all]
    · rw [if_neg same]
  finished other := by
    have before := logged.finished other
    rw [List.mem_append, List.mem_singleton, before, left_cons_iff, Event.finished.injEq]
    by_cases same : other = vertex
    · subst same
      exact iff_of_true (.inr rfl) ⟨met, outside⟩
    · simp [same]
  next_le frame member := logged.next_le frame (List.mem_cons_of_mem _ member)

/-- A turn adds its events to the log. -/
theorem turn (wellFormed : graph.WellFormed) {before after : Search}
    (logged : Logged graph before log) (coherent : Coherent graph before)
    (turn : Turn graph before after) : Logged graph after (log ++ before.events graph) := by
  cases turn with
  | @descend progress frames vertex target next found fresh =>
      have marked : target < progress.marks.size := coherent.marked_target wellFormed found
      have outside : target ∉ ({ vertex, next := next + 1 } :: frames : List Frame).map
          Frame.vertex := by
        intro member
        obtain ⟨frame, underWay, rfl⟩ := List.mem_map.mp member
        rcases List.mem_cons.mp underWay with rfl | lower
        · have present : progress.Met vertex := coherent.met_of_frame List.mem_cons_self
          exact fresh present
        · exact fresh (coherent.met_of_frame (List.mem_cons_of_mem _ lower))
      have happened : events graph { progress, frames := { vertex, next } :: frames } =
          [.followed vertex next] ++ [.discovered target] := by
        simp [events, found, fresh]
      rw [happened, ← List.append_assoc]
      exact (logged.advance found).enter marked fresh outside
  | @bound progress frames vertex target next found isOpen =>
      have happened : events graph { progress, frames := { vertex, next } :: frames } =
          [.followed vertex next] := by
        simp [events, found, isOpen.met]
      rw [happened]
      exact (logged.advance found).congr fun _ => Progress.met_lower
  | @skip progress frames vertex target next found met isClosed =>
      have happened : events graph { progress, frames := { vertex, next } :: frames } =
          [.followed vertex next] := by
        simp [events, found, met]
      rw [happened]
      exact logged.advance found
  | @leave progress frames vertex next exhausted =>
      have happened : events graph { progress, frames := { vertex, next } :: frames } =
          [.finished vertex] := by
        simp [events, exhausted]
      have sorted := (List.pairwise_cons.mp coherent.frames_sorted).1
      have outside : vertex ∉ frames.map Frame.vertex := fun member =>
        Nat.lt_irrefl _ (sorted vertex member)
      rw [happened]
      exact (logged.leave exhausted (coherent.met_of_frame List.mem_cons_self) outside).congr
        fun _ => coherent.met_leave List.mem_cons_self

end Logged

end Search

/-! ## From state to state -/

namespace Course

open Search (Coherent Logged)

/-- What is known of every state: the search is coherent, the log is true, and the turns taken
and those left are together the turns of the graph. -/
structure Sound (graph : Graph α) (course : Course) : Prop where
  coherent : Coherent graph course.search
  inside : ∀ root ∈ course.roots, root < graph.size
  logged : Logged graph course.search course.log
  turns : course.turns + course.search.remaining graph = graph.turns

namespace Sound

theorem start (graph : Graph α) : Sound graph (.start graph) where
  coherent := .start graph
  inside _ member := Graph.mem_vertexIds.mp member
  logged := .start graph
  turns := by
    have all : (Progress.start graph.size).unmet graph = graph.vertexIds := by
      simp [Progress.unmet, Progress.not_met_start]
    simp [Course.start, Search.remaining, all, graph.turns_eq]

/-- A turn is taken. -/
theorem turn (wellFormed : graph.WellFormed) {course : Course} (sound : Sound graph course)
    (unfinished : course.search.frames ≠ []) :
    Sound graph
      { course with
        search := course.search.step graph
        turns := course.turns + 1
        log := course.log ++ course.search.events graph } := by
  have turn := sound.coherent.turn_step unfinished
  refine ⟨sound.coherent.turn wellFormed turn, sound.inside,
    sound.logged.turn wellFormed sound.coherent turn, ?_⟩
  have done := turn.remaining_eq wellFormed sound.coherent
  have total := sound.turns
  dsimp only
  omega

/-- A root is entered. -/
theorem enter {progress : Progress} {root : Nat} {roots : List VertexId} {turns : Nat}
    {log : List Search.Event}
    (sound : Sound graph
      { search := { progress, frames := [] }, roots := root :: roots, turns, log })
    (fresh : ¬ progress.Met root) :
    Sound graph
      { search := Search.enter { progress, frames := [] } root
        roots
        turns
        log := log ++ [.discovered root] } := by
  have inside : root < graph.size := sound.inside root List.mem_cons_self
  have marked : progress.marks.size = graph.size := sound.coherent.orderly.size_marks
  refine ⟨Graph.coherent_enter sound.coherent inside fresh,
    fun other member => sound.inside other (List.mem_cons_of_mem _ member),
    sound.logged.enter (marked ▸ inside) fresh List.not_mem_nil, ?_⟩
  have same : (Search.enter { progress, frames := [] } root).remaining graph =
      Search.remaining graph { progress, frames := [] } :=
    Search.remaining_discover marked inside fresh
  have total := sound.turns
  exact same ▸ total

/-- Every step leads from a sound state to a sound state. -/
theorem next (wellFormed : graph.WellFormed) {before after : Course} (sound : Sound graph before)
    (stepped : before.next graph = some after) : Sound graph after := by
  obtain ⟨⟨progress, frames⟩, roots, turns, log⟩ := before
  cases frames with
  | cons frame frames =>
      obtain rfl := Option.some.inj stepped
      exact sound.turn wellFormed (List.cons_ne_nil frame frames)
  | nil =>
      cases roots with
      | nil => exact nomatch stepped
      | cons root roots =>
          simp only [Course.next] at stepped
          split at stepped
          · obtain rfl := Option.some.inj stepped
            exact ⟨sound.coherent, fun other member => sound.inside other
              (List.mem_cons_of_mem _ member), sound.logged, sound.turns⟩
          · next fresh =>
              obtain rfl := Option.some.inj stepped
              exact sound.enter fresh

theorem reached (wellFormed : graph.WellFormed) {course : Course}
    (reached : (Course.start graph).Reaches graph course) : Sound graph course := by
  induction reached with
  | refl => exact .start graph
  | tail _ stepped sound => exact sound.next wellFormed stepped

/-- A sound state is a safe one. What the next step reads or changes was met before it or is
met in it. -/
theorem safe (wellFormed : graph.WellFormed) {course : Course} (sound : Sound graph course) :
    Safe graph course where
  inRange vertex member := by
    obtain ⟨⟨progress, frames⟩, roots, turns, log⟩ := course
    have coherent := sound.coherent
    cases frames with
    | nil =>
        cases roots with
        | nil => exact nomatch member
        | cons root roots =>
            rw [List.mem_singleton.mp member]
            exact sound.inside root List.mem_cons_self
    | cons frame frames =>
        have present : frame.vertex < graph.size :=
          coherent.lt_size_of_met (coherent.met_of_frame List.mem_cons_self)
        simp only [accesses] at member
        split at member
        · next target found =>
            rcases List.mem_cons.mp member with rfl | last
            · exact present
            · rw [List.mem_singleton.mp last]
              exact wellFormed frame.vertex target (Graph.edge_of_target? found)
        · rw [List.mem_append, List.mem_cons] at member
          rcases member with (rfl | released) | parent
          · exact present
          · have after := coherent.turn wellFormed
              (coherent.turn_step (List.cons_ne_nil frame frames))
            obtain ⟨component, closed, inComponent⟩ := List.mem_flatMap.mp released
            exact after.lt_size_of_met
              (after.met_of_closed (List.mem_of_mem_drop closed) vertex inComponent)
          · obtain ⟨other, first, rfl⟩ := Option.map_eq_some_iff.mp (Option.mem_toList.mp parent)
            exact coherent.lt_size_of_met
              (coherent.met_of_frame (List.mem_cons_of_mem _ (List.mem_of_mem_head? first)))
  unchanged _ stepped _ outside := mark?_next stepped outside
  unread _ _ sameEdges agree := next_agreeOn agree sameEdges
  marked := sound.coherent.orderly.size_marks
  stacked _ member := sound.coherent.stacked_of_frame member
  emptied := sound.coherent.stack_eq_nil
  nonempty := sound.coherent.settled.nonempty

end Sound

/-! ## The way to the end -/

/-- Turns that a bounded search takes are steps of the machine. -/
theorem reaches_explore (graph : Graph α) (count : Nat) (course : Course) :
    ∃ turns log, course.Reaches graph
      { course with search := Search.explore graph count course.search, turns, log } := by
  induction count generalizing course with
  | zero => exact ⟨course.turns, course.log, .refl⟩
  | succ count inductionHypothesis =>
      by_cases finished : course.search.frames = []
      · rw [Search.explore_of_frames_eq_nil graph _ finished]
        exact ⟨course.turns, course.log, .refl⟩
      · simp only [Search.explore, List.isEmpty_iff, finished, if_false]
        obtain ⟨turns, log, reached⟩ := inductionHypothesis
          { course with
            search := course.search.step graph
            turns := course.turns + 1
            log := course.log ++ course.search.events graph }
        refine ⟨turns, log, reached.head ?_⟩
        obtain ⟨⟨progress, frames⟩, roots, turns, log⟩ := course
        cases frames with
        | nil => exact absurd rfl finished
        | cons frame frames => rfl

/-- Visits of the roots are steps of the machine. The bound of each visit lets it come to its
end, and so the machine is at the next root when the bounded search is. -/
theorem reaches_visits (wellFormed : graph.WellFormed) (roots : List Nat) (progress : Progress)
    (turns : Nat) (log : List Search.Event) (inside : ∀ root ∈ roots, root < graph.size)
    (coherent : Coherent graph { progress, frames := [] }) :
    ∃ turnsAfter logAfter,
      Reaches graph { search := { progress, frames := [] }, roots, turns, log }
        { search := { progress := roots.foldl (graph.visit graph.turns) progress, frames := [] }
          roots := []
          turns := turnsAfter
          log := logAfter } := by
  induction roots generalizing progress turns log with
  | nil => exact ⟨turns, log, .refl⟩
  | cons root rest inductionHypothesis =>
      have rootInside := inside root List.mem_cons_self
      have restInside : ∀ other ∈ rest, other < graph.size :=
        fun other member => inside other (List.mem_cons_of_mem _ member)
      have visited := (Graph.visit_spec wellFormed coherent rootInside).1
      rw [List.foldl_cons]
      by_cases met : progress.Met root
      · rw [Graph.visit_of_met met] at visited ⊢
        obtain ⟨turnsAfter, logAfter, reached⟩ :=
          inductionHypothesis progress turns log restInside visited
        refine ⟨turnsAfter, logAfter, reached.head ?_⟩
        simp only [next, met, if_true]
      · have entered := Graph.coherent_enter coherent rootInside met
        have finished := entered.explore_finishes wellFormed
          (Graph.remaining_enter_le coherent rootInside met)
        rw [Graph.visit_of_not_met met] at visited ⊢
        obtain ⟨turnsBetween, logBetween, explored⟩ := reaches_explore graph graph.turns
          { search := Search.enter { progress, frames := [] } root
            roots := rest
            turns
            log := log ++ [.discovered root] }
        dsimp only at explored
        generalize Search.explore graph graph.turns _ = reachedSearch at finished explored visited ⊢
        obtain ⟨progressBetween, frames⟩ := reachedSearch
        obtain rfl : frames = [] := finished
        obtain ⟨turnsAfter, logAfter, reached⟩ :=
          inductionHypothesis progressBetween turnsBetween logBetween restInside visited
        refine ⟨turnsAfter, logAfter, (explored.trans reached).head ?_⟩
        simp only [next, met, if_false]

/-- From every state on the way to a state that has halted the machine gets there. -/
theorem Reaches.halted {first course last : Course} (reached : first.Reaches graph course)
    (ended : first.Reaches graph last) (halted : last.next graph = none) :
    course.Reaches graph last := by
  have unique : Relator.RightUnique fun before after : Course =>
      before.next graph = some after := fun _ _ _ left right =>
    Option.some.inj (left.symm.trans right)
  rcases Relation.ReflTransGen.total_of_right_unique unique reached ended with forth | back
  · exact forth
  · rcases Relation.ReflTransGen.cases_head back with rfl | ⟨after, stepped, _⟩
    · exact .refl
    · exact nomatch halted.symm.trans stepped

/-- The machine halts when it has come to the traversal. -/
theorem exists_halted (wellFormed : graph.WellFormed) :
    ∃ last : Course, (start graph).Reaches graph last ∧ last.next graph = none ∧
      last.search = { progress := graph.traverse, frames := [] } := by
  obtain ⟨turns, log, reached⟩ := reaches_visits wellFormed graph.vertexIds
    (.start graph.size) 0 [] (fun _ => Graph.mem_vertexIds.mp) (.start graph)
  rw [← Graph.traverse_eq] at reached
  exact ⟨_, reached, rfl, rfl⟩

/-- What the machine has closed by then is reported, and its marks are left on the graph. -/
theorem detect_of_ended {last : Course}
    (ended : last.search = { progress := graph.traverse, frames := [] }) :
    graph.detect.components.toList = last.search.progress.closed.toList.map graph.valuesOf ∧
      graph.detect.graph = { graph with marks := last.search.progress.marks } := by
  rw [ended]
  exact ⟨rfl, rfl⟩

end Course

namespace Graph

/-- Nothing is left to do when all vertices were met and there are no frames. -/
theorem remaining_traverse (wellFormed : graph.WellFormed) :
    Search.remaining graph { progress := graph.traverse, frames := [] } = 0 := by
  have allMet := (traverse_complete wellFormed).2
  have none : graph.traverse.unmet graph = [] := by
    rw [Progress.unmet, List.filter_eq_nil_iff]
    intro vertex member
    simp [allMet vertex (mem_vertexIds.mp member)]
  simp [Search.remaining, none]

/-- The traversal comes to its end without any bound on its turns. From the start a finite
number of steps leads to a state that has no next one, with the marks, the stack and the
components of the traversal, and these are what the detection reports and leaves on the graph.
By then it has taken as many turns as there are vertices and edges; every vertex was discovered
once and finished once, and every edge of every vertex was followed once, by its position. Every
state on the way leads to that end and is safe: the next step reads and changes vertices of the
graph only, what is under way is on the stack, the stack is empty when no frames are left, and
no component is without members. -/
theorem detect_halts (built : graph.Built) :
    ∃ last : Course, (Course.start graph).Reaches graph last ∧ last.next graph = none ∧
      last.search = { progress := graph.traverse, frames := [] } ∧
      graph.detect.components.toList = last.search.progress.closed.toList.map graph.valuesOf ∧
      graph.detect.graph = { graph with marks := last.search.progress.marks } ∧
      last.turns = graph.size + graph.edgeCount ∧
      last.log.Nodup ∧
      (∀ vertex, .discovered vertex ∈ last.log ↔ vertex < graph.size) ∧
      (∀ vertex, .finished vertex ∈ last.log ↔ vertex < graph.size) ∧
      (∀ vertex position, .followed vertex position ∈ last.log ↔
        position < (graph.targets vertex).length) ∧
      ∀ course, (Course.start graph).Reaches graph course →
        course.Reaches graph last ∧ course.Safe graph := by
  have wellFormed : graph.WellFormed := built.wellFormed
  obtain ⟨coherent, allMet⟩ := traverse_complete wellFormed
  have met_iff : ∀ vertex, graph.traverse.Met vertex ↔ vertex < graph.size :=
    fun vertex => ⟨coherent.lt_size_of_met, allMet vertex⟩
  obtain ⟨last, reached, halted, ended⟩ := Course.exists_halted wellFormed
  obtain ⟨components, left⟩ := Course.detect_of_ended ended
  have sound := Course.Sound.reached wellFormed reached
  have logged := sound.logged
  have turns := sound.turns
  rw [ended] at logged turns
  rw [remaining_traverse wellFormed, Nat.add_zero] at turns
  refine ⟨last, reached, halted, ended, components, left, turns, logged.nodup, ?_, ?_, ?_, ?_⟩
  · exact fun vertex => (logged.discovered vertex).trans (met_iff vertex)
  · intro vertex
    rw [logged.finished, ← met_iff]
    exact and_iff_left List.not_mem_nil
  · intro vertex position
    rw [logged.followed, Search.followed]
    dsimp only
    split
    · exact Iff.rfl
    · next unmet =>
        have none : graph.targets vertex = [] := by
          rw [List.eq_nil_iff_forall_not_mem]
          exact fun target edge => unmet (allMet vertex (Edge.source_lt_size edge))
        rw [none, List.length_nil]
  · intro course underWay
    have safe := (Course.Sound.reached wellFormed underWay).safe wellFormed
    exact ⟨underWay.halted reached halted, safe⟩

/-- The sample graph takes ten turns, for its four vertices and six edges. The two parallel
edges are followed once each. -/
theorem ringAndLoop_halts :
    ringAndLoop.Built ∧ ∃ last : Course, (Course.start ringAndLoop).Reaches ringAndLoop last ∧
      last.next ringAndLoop = none ∧ last.turns = 10 ∧ last.log.Nodup ∧
      .followed 1 1 ∈ last.log ∧ .followed 1 2 ∈ last.log ∧ .followed 1 3 ∉ last.log ∧
      last.search.progress.stack = [] := by
  obtain ⟨last, reached, halted, ended, _, _, turns, nodup, _, _, followed, all⟩ :=
    detect_halts built_ringAndLoop
  have safe := (all last reached).2
  refine ⟨built_ringAndLoop, last, reached, halted, turns, nodup, ?_, ?_, ?_, ?_⟩
  · exact (followed 1 1).mpr (by decide)
  · exact (followed 1 2).mpr (by decide)
  · exact fun member => absurd ((followed 1 3).mp member) (by decide)
  · exact safe.emptied (by rw [ended])

end Graph

end GraphsAndCaches
