import GraphsAndCaches.Proofs.Graph.Partition
import GraphsAndCaches.Proofs.Graph.Recursion

/-!
# The traversal is the recursive algorithm

The frames of a search stand for the calls of a recursion that have not returned. A
call corresponds to the turns between the entry of its vertex and the moment at which
the frame of that vertex is gone. At that moment the search has the marks, the stack
and the components with which the call returns, except that it has handed the lowlink
over already, which in the recursion is the next thing that the caller does.

The comparison is by induction on the depth of the recursion, and within a call on
the edges that are left to follow. The frames below take part in neither, so they are
arbitrary. A depth of as many calls as there are unmet vertices is always enough.
-/

namespace GraphsAndCaches

universe u
variable {α : Type u} {graph : Graph α}

namespace Progress

variable {progress : Progress}

/-- A traversal in the terms of the recursion. -/
def asState (progress : Progress) : Recursion.State where
  counter := progress.counter
  index vertex := (progress.mark? vertex).map Mark.index
  lowlink := progress.lowlink
  stack := progress.stack
  components := progress.closed.toList

theorem index_asState_of_met {vertex : VertexId} (met : progress.Met vertex) :
    progress.asState.index vertex = some (progress.index vertex) := by
  simp only [Met] at met
  cases marked : progress.mark? vertex with
  | none => simp [marked] at met
  | some mark => simp [asState, index, marked]

theorem index_asState_of_not_met {vertex : VertexId} (fresh : ¬ progress.Met vertex) :
    progress.asState.index vertex = none := by
  simp only [Met] at fresh
  cases marked : progress.mark? vertex with
  | none => simp [asState, marked]
  | some mark => simp [marked] at fresh

theorem asState_start (size : Nat) : (start size).asState = {} := by
  have unmarked : ∀ vertex, (start size).mark? vertex = none := by
    intro vertex
    have fresh := not_met_start size vertex
    simp only [Met] at fresh
    simpa using fresh
  have indices : (fun vertex => ((start size).mark? vertex).map Mark.index) = fun _ => none :=
    funext fun vertex => by rw [unmarked]; rfl
  have lowlinks : (start size).lowlink = fun _ => 0 :=
    funext fun vertex => by rw [lowlink, unmarked]; rfl
  simp only [asState, indices, lowlinks]
  rfl

theorem asState_discover {vertex : VertexId} (inside : vertex < progress.marks.size) :
    (progress.discover vertex).asState = progress.asState.discover vertex := by
  have indices : (fun other => ((progress.discover vertex).mark? other).map Mark.index) =
      Function.update (fun other => (progress.mark? other).map Mark.index) vertex
        (some progress.counter) := by
    funext other
    rw [mark?_discover inside]
    by_cases same : other = vertex
    · simp [same]
    · simp [same]
  have lowlinks : (progress.discover vertex).lowlink =
      Function.update progress.lowlink vertex progress.counter := by
    funext other
    rw [lowlink_discover inside]
    by_cases same : other = vertex
    · simp [same]
    · simp [same]
  simp only [asState, Recursion.State.discover, indices, lowlinks, counter_discover,
    stack_discover, closed_discover]

theorem asState_lower (vertex : VertexId) (bound : Nat) :
    (progress.lower vertex bound).asState = progress.asState.lower vertex bound := by
  have indices : (fun other => ((progress.lower vertex bound).mark? other).map Mark.index) =
      fun other => (progress.mark? other).map Mark.index := by
    funext other
    rw [mark?_lower]
    split
    · cases progress.mark? other <;> rfl
    · rfl
  have lowlinks : (progress.lower vertex bound).lowlink =
      Function.update progress.lowlink vertex (min (progress.lowlink vertex) bound) := by
    funext other
    rw [lowlink_lower]
    by_cases same : other = vertex
    · simp [same]
    · simp [same]
  simp only [asState, Recursion.State.lower, indices, lowlinks, counter_lower, stack_lower,
    closed_lower]

/-- Popping down to a vertex splits the stack where the vertex lies. -/
theorem popTo_split {above below : List VertexId} {vertex : VertexId} (absent : vertex ∉ above) :
    Recursion.State.popTo vertex (above ++ vertex :: below) = (above ++ [vertex], below) := by
  induction above with
  | nil => simp [Recursion.State.popTo]
  | cons top rest inductionHypothesis =>
      have different : ¬ top = vertex := fun same => absent (same ▸ List.mem_cons_self)
      have absentRest : vertex ∉ rest := fun member => absent (List.mem_cons_of_mem _ member)
      simp [Recursion.State.popTo, different, inductionHypothesis absentRest]

/-- Finishing a vertex of the stack is the same thing in both terms. -/
theorem asState_finish (orderly : progress.Orderly graph) {vertex : VertexId}
    (member : vertex ∈ progress.stack) :
    (progress.finish graph vertex).asState = progress.asState.finish graph vertex := by
  have met : progress.Met vertex := orderly.met_of_mem_stack member
  simp only [Progress.finish, Recursion.State.finish]
  rw [index_asState_of_met met]
  by_cases isRoot : progress.index vertex = progress.lowlink vertex
  · obtain ⟨above, below, stacked⟩ := List.append_of_mem member
    have absent : vertex ∉ above := orderly.not_mem_above stacked
    have indices :
        (fun other => ((progress.close graph vertex).mark? other).map Mark.index) =
          fun other => (progress.mark? other).map Mark.index := by
      funext other
      rw [mark?_close stacked absent]
      split
      · cases progress.mark? other <;> rfl
      · rfl
    have lowlinks : (progress.close graph vertex).lowlink = progress.lowlink :=
      funext (lowlink_close stacked absent)
    have flag : graph.hasSelfLoop vertex = decide (vertex ∈ graph.targets vertex) := by
      rw [Bool.eq_iff_iff, Graph.hasSelfLoop_iff, decide_eq_true_iff]
      exact Iff.rfl
    have sameRoot : some (progress.index vertex) = some (progress.asState.lowlink vertex) :=
      congrArg some isRoot
    have popped : Recursion.State.popTo vertex progress.asState.stack =
        (above ++ [vertex], below) := by
      rw [show progress.asState.stack = above ++ vertex :: below from stacked]
      exact popTo_split absent
    rw [if_pos isRoot, if_pos sameRoot, popped]
    simp only [asState, indices, lowlinks]
    rw [close_eq stacked absent, flag]
    simp only [Array.toList_push]
  · have otherRoot : ¬ some (progress.index vertex) = some (progress.asState.lowlink vertex) :=
      fun same => isRoot (Option.some.inj same)
    rw [if_neg isRoot, if_neg otherRoot]

/-- What was met is no longer unmet, so there are ever fewer unmet vertices. -/
theorem length_unmet_le {before after : Progress}
    (mono : ∀ vertex, before.Met vertex → after.Met vertex) :
    (after.unmet graph).length ≤ (before.unmet graph).length := by
  rw [unmet, unmet, ← List.countP_eq_length_filter, ← List.countP_eq_length_filter]
  apply List.countP_mono_left
  intro vertex _ unmetAfter
  have fresh : ¬ after.Met vertex := by simpa using unmetAfter
  have freshBefore : ¬ before.Met vertex := fun met => fresh (mono vertex met)
  simpa using freshBefore

end Progress

namespace Search

/-- Some number of turns leads from one search to the other. -/
def Leads (graph : Graph α) (before after : Search) : Prop :=
  ∃ turns, explore graph turns before = after

namespace Leads

theorem refl (search : Search) : Leads graph search search := ⟨0, rfl⟩

theorem trans {first second third : Search} (left : Leads graph first second)
    (right : Leads graph second third) : Leads graph first third := by
  obtain ⟨turns, rfl⟩ := left
  obtain ⟨more, rfl⟩ := right
  exact ⟨turns + more, explore_add graph turns more first⟩

theorem coherent {before after : Search} (leads : Leads graph before after)
    (wellFormed : graph.WellFormed) (coherent : Coherent graph before) :
    Coherent graph after := by
  obtain ⟨turns, rfl⟩ := leads
  exact coherent.explored wellFormed turns

theorem met_mono {before after : Search} (leads : Leads graph before after)
    (wellFormed : graph.WellFormed) (coherent : Coherent graph before) (vertex : VertexId)
    (met : before.progress.Met vertex) : after.progress.Met vertex := by
  obtain ⟨turns, rfl⟩ := leads
  exact coherent.explore_met_mono wellFormed turns vertex met

/-- A search that has come to its end has come to every end it can come to. -/
theorem explore_eq {before after : Search} (leads : Leads graph before after)
    (finished : after.frames = []) {turns : Nat}
    (alsoFinished : (explore graph turns before).frames = []) :
    explore graph turns before = after := by
  obtain ⟨others, rfl⟩ := leads
  rcases Nat.le_total turns others with fewer | more
  · obtain ⟨rest, rfl⟩ := Nat.exists_eq_add_of_le fewer
    rw [explore_add, explore_of_frames_eq_nil graph rest alsoFinished]
  · obtain ⟨rest, rfl⟩ := Nat.exists_eq_add_of_le more
    rw [explore_add, explore_of_frames_eq_nil graph rest finished]

end Leads

/-- A turn is what the search does next. -/
theorem Turn.leads {before after : Search} (turn : Turn graph before after)
    (coherent : Coherent graph before) : Leads graph before after := by
  have stepped : before.frames ≠ [] ∧ step graph before = after := by
    cases turn with
    | descend found fresh =>
        refine ⟨List.cons_ne_nil _ _, ?_⟩
        rw [step, found]
        exact follow_of_not_met fresh
    | bound found isOpen =>
        refine ⟨List.cons_ne_nil _ _, ?_⟩
        rw [step, found]
        exact follow_of_open isOpen
    | skip found met isClosed =>
        refine ⟨List.cons_ne_nil _ _, ?_⟩
        rw [step, found]
        exact follow_of_not_open met isClosed
    | leave exhausted =>
        refine ⟨List.cons_ne_nil _ _, ?_⟩
        rw [step, exhausted]
        exact leave_eq (coherent.met_of_frame List.mem_cons_self)
  refine ⟨1, ?_⟩
  simp only [explore, List.isEmpty_iff, stepped.1, if_false]
  exact stepped.2

/-- What it means that `connect` answers a search which has just entered a vertex: the
answer is the traversal once that vertex was finished, and the search gets there with
the frames that it had below. -/
def Answers (graph : Graph α) (connect : Recursion.State → VertexId → Option Recursion.State)
    (progress : Progress) (vertex : VertexId) (frames : List Frame) : Prop :=
  ∃ after : Progress,
    connect progress.asState vertex = some after.asState ∧
      Leads graph { progress := progress.discover vertex, frames := { vertex } :: frames }
        { progress := after.handOver frames (after.lowlink vertex), frames }

/-- It answers for every vertex that can be entered while so few vertices are unmet. -/
def AnswersWithin (graph : Graph α)
    (connect : Recursion.State → VertexId → Option Recursion.State) (depth : Nat) : Prop :=
  ∀ progress vertex frames,
    Coherent graph { progress := progress.discover vertex, frames := { vertex } :: frames } →
      vertex ∈ progress.unmet graph → (progress.unmet graph).length ≤ depth →
        Answers graph connect progress vertex frames

variable {descend : Recursion.State → VertexId → Option Recursion.State} {depth : Nat}

/-- Following one edge brings the search to the next position, with the same change on
both sides. -/
theorem follow_edge_simulates (wellFormed : graph.WellFormed)
    (answers : AnswersWithin graph descend depth) {progress : Progress} {vertex target : VertexId}
    {next : Nat} {frames : List Frame} (found : graph.target? vertex next = some target)
    (coherent : Coherent graph { progress, frames := { vertex, next } :: frames })
    (shallow : (progress.unmet graph).length ≤ depth) :
    ∃ after : Progress,
      Recursion.follow descend vertex progress.asState target = some after.asState ∧
        Leads graph { progress, frames := { vertex, next } :: frames }
          { progress := after, frames := { vertex, next := next + 1 } :: frames } := by
  by_cases met : progress.Met target
  · by_cases isOpen : progress.Open target
    · refine ⟨progress.lower vertex (progress.index target), ?_,
        (Turn.bound found isOpen).leads coherent⟩
      have stacked : target ∈ progress.asState.stack :=
        (coherent.orderly.open_iff target).mp isOpen
      simp only [Recursion.follow, Progress.index_asState_of_met met, stacked, if_true,
        Progress.asState_lower]
      rfl
    · refine ⟨progress, ?_, (Turn.skip found met isOpen).leads coherent⟩
      have unstacked : target ∉ progress.asState.stack := fun stacked =>
        isOpen ((coherent.orderly.open_iff target).mpr stacked)
      simp only [Recursion.follow, Progress.index_asState_of_met met, unstacked, if_false]
      rfl
  · have descended := Turn.leads (.descend found met) coherent
    have inside : target < graph.size := wellFormed vertex target (Graph.edge_of_target? found)
    obtain ⟨returned, answered, leads⟩ := answers progress target
      ({ vertex, next := next + 1 } :: frames) (descended.coherent wellFormed coherent)
      (Progress.mem_unmet.mpr ⟨inside, met⟩) shallow
    refine ⟨returned.lower vertex (returned.lowlink target), ?_, descended.trans leads⟩
    simp only [Recursion.follow, Progress.index_asState_of_not_met met, answered,
      Progress.asState_lower]
    rfl

/-- Following the edges of a vertex from some position on is the same thing in both
terms, when this holds of every vertex that is entered on the way. -/
theorem follow_simulates (wellFormed : graph.WellFormed)
    (answers : AnswersWithin graph descend depth) {vertex : VertexId} {frames : List Frame}
    (rest : List VertexId) (next : Nat) (progress : Progress)
    (suffix : (graph.targets vertex).drop next = rest)
    (coherent : Coherent graph { progress, frames := { vertex, next } :: frames })
    (shallow : (progress.unmet graph).length ≤ depth) :
    ∃ after : Progress,
      rest.foldlM (Recursion.follow descend vertex) progress.asState = some after.asState ∧
        Leads graph { progress, frames := { vertex, next } :: frames }
          { progress := after, frames := { vertex, next := next + rest.length } :: frames } := by
  induction rest generalizing next progress with
  | nil => exact ⟨progress, rfl, .refl _⟩
  | cons target rest inductionHypothesis =>
      have found : graph.target? vertex next = some target := by
        rw [Graph.target?_eq, ← List.head?_drop, suffix]
        rfl
      have restSuffix : (graph.targets vertex).drop (next + 1) = rest := by
        rw [← List.tail_drop, suffix]
        rfl
      have length : next + (target :: rest).length = next + 1 + rest.length := by
        rw [List.length_cons]
        omega
      obtain ⟨between, followed, leads⟩ :=
        follow_edge_simulates wellFormed answers found coherent shallow
      have fewer : (between.unmet graph).length ≤ (progress.unmet graph).length :=
        Progress.length_unmet_le (leads.met_mono wellFormed coherent)
      obtain ⟨after, folded, further⟩ := inductionHypothesis (next + 1) between restSuffix
        (leads.coherent wellFormed coherent) (Nat.le_trans fewer shallow)
      refine ⟨after, ?_, ?_⟩
      · rw [List.foldlM_cons, followed]
        exact folded
      · rw [length]
        exact leads.trans further

/-- A call of the recursion corresponds to the turns of its frame.

Induct on the depth. The edges are followed as in the law above, whose calls go one
level deeper and find one vertex fewer unmet. Then no edge is left, and the search
leaves the vertex. -/
theorem connect_simulates (wellFormed : graph.WellFormed) (depth : Nat) :
    AnswersWithin graph (Recursion.connect graph depth) depth := by
  induction depth with
  | zero =>
      intro progress vertex frames _ unmet enough
      exact absurd (List.length_pos_of_mem unmet) (Nat.not_lt_of_le enough)
  | succ depth inductionHypothesis =>
      intro progress vertex frames coherent unmet enough
      have marked : vertex < progress.marks.size := by
        have size := coherent.orderly.size_marks
        rw [Progress.size_marks_discover] at size
        exact size ▸ (Progress.mem_unmet.mp unmet).1
      have shallow : ((progress.discover vertex).unmet graph).length ≤ depth := by
        rw [Progress.unmet_discover marked, List.length_erase_of_mem unmet]
        omega
      obtain ⟨followed, folded, leads⟩ := follow_simulates wellFormed inductionHypothesis
        (graph.targets vertex) 0 (progress.discover vertex) rfl coherent shallow
      have coherentAfter := leads.coherent wellFormed coherent
      have stacked : vertex ∈ followed.stack :=
        coherentAfter.stacked_of_frame List.mem_cons_self
      have exhausted : graph.target? vertex (0 + (graph.targets vertex).length) = none :=
        Graph.target?_eq_none_iff.mpr (Nat.le_of_eq (Nat.zero_add _).symm)
      refine ⟨followed.finish graph vertex, ?_, ?_⟩
      · rw [Progress.asState_discover marked] at folded
        simp only [Recursion.connect, folded]
        exact congrArg some (Progress.asState_finish coherentAfter.orderly stacked).symm
      · rw [Progress.lowlink_finish coherentAfter.orderly stacked]
        exact leads.trans ((Turn.leave exhausted).leads coherentAfter)

end Search

namespace Graph

open Search (Coherent Leads)

/-- A visit is a call of the recursion, when the depth allows a call for each unmet
vertex. -/
theorem connect_visit (wellFormed : graph.WellFormed) {depth : Nat} {progress : Progress}
    {root : Nat} (coherent : Coherent graph { progress, frames := [] })
    (inside : root < graph.size) (enough : graph.size ≤ depth) :
    (if (progress.asState.index root).isSome then some progress.asState
      else Recursion.connect graph depth progress.asState root) =
      some (graph.visit graph.turns progress root).asState := by
  by_cases met : progress.Met root
  · rw [visit_of_met met, Progress.index_asState_of_met met]
    rfl
  · have entered := coherent_enter coherent inside met
    have few : (progress.unmet graph).length ≤ depth := by
      have part := List.length_filter_le (fun vertex => !decide (progress.Met vertex))
        graph.vertexIds
      rw [vertexIds, List.length_range] at part
      exact Nat.le_trans part enough
    obtain ⟨after, answered, leads⟩ := Search.connect_simulates wellFormed depth progress root []
      entered (Progress.mem_unmet.mpr ⟨inside, met⟩) few
    have finished := entered.explore_finishes wellFormed (remaining_enter_le coherent inside met)
    have ended : Search.explore graph graph.turns (.enter { progress, frames := [] } root) =
        { progress := after, frames := [] } := leads.explore_eq rfl finished
    rw [visit_of_not_met met, Progress.index_asState_of_not_met met, ended]
    exact answered

/-- Visits of roots one after another are what the recursion does with these roots. -/
theorem connect_visits (wellFormed : graph.WellFormed) {depth : Nat} (enough : graph.size ≤ depth)
    {roots : List Nat} {progress : Progress} (inside : ∀ root ∈ roots, root < graph.size)
    (coherent : Coherent graph { progress, frames := [] }) :
    roots.foldlM (fun state root => if (state.index root).isSome then some state
      else Recursion.connect graph depth state root) progress.asState =
      some (roots.foldl (graph.visit graph.turns) progress).asState := by
  induction roots generalizing progress with
  | nil => rfl
  | cons root rest inductionHypothesis =>
      have rootInside := inside root List.mem_cons_self
      rw [List.foldlM_cons, connect_visit wellFormed coherent rootInside enough]
      exact inductionHypothesis (fun other member => inside other (List.mem_cons_of_mem _ member))
        (visit_spec wellFormed coherent rootInside).1

/-- The recursion ends in the state that the traversal ends in. -/
theorem run_eq_traverse (wellFormed : graph.WellFormed) {depth : Nat}
    (enough : graph.size ≤ depth) :
    Recursion.run graph depth = some graph.traverse.asState := by
  simp only [Recursion.run]
  rw [← Progress.asState_start graph.size, traverse_eq]
  exact connect_visits wellFormed enough (fun root member => mem_vertexIds.mp member)
    (.start graph)

/-- The detection gives what the recursive algorithm gives. The recursion, allowed as
many nested calls as there are vertices, has an answer; the detection pops the same
components in the same order, with the same members and flags, and reports them with
values for vertices; and it leaves the same indices and lowlinks. -/
theorem detect_eq_recursion (built : graph.Built) {depth : Nat} (enough : graph.size ≤ depth) :
    ∃ final : Recursion.State, Recursion.run graph depth = some final ∧
      graph.traverse.closed.toList = final.components ∧
      graph.detect.components.toList = final.components.map graph.valuesOf ∧
      ∀ vertex, graph.detect.graph.index? vertex = final.index vertex ∧
        graph.detect.graph.lowlink? vertex =
          (final.index vertex).map fun _ => final.lowlink vertex := by
  refine ⟨graph.traverse.asState, run_eq_traverse built.wellFormed enough, rfl, rfl, ?_⟩
  intro vertex
  refine ⟨rfl, ?_⟩
  change (graph.traverse.mark? vertex).map Mark.lowlink =
    ((graph.traverse.mark? vertex).map Mark.index).map
      fun _ => (graph.traverse.mark? vertex).elim 0 Mark.lowlink
  cases graph.traverse.mark? vertex <;> rfl

/-- On the sample graph the recursion pops the loop first, then the ring from its first
vertex on, and the last vertex on its own. -/
theorem ringAndLoop_recursion :
    ringAndLoop.Built ∧ ringAndLoop.size ≤ 4 ∧
      ringAndLoop.detect.components.toList.map Component.members = [['b'], ['a', 'a'], ['c']] ∧
      ringAndLoop.detect.components.toList.map Component.selfLoop = [true, false, false] ∧
      ∃ final : Recursion.State, Recursion.run ringAndLoop 4 = some final ∧
        ringAndLoop.detect.components.toList = final.components.map ringAndLoop.valuesOf ∧
        ringAndLoop.detect.graph.lowlink? 1 = (final.index 1).map fun _ => final.lowlink 1 := by
  have small : ringAndLoop.size ≤ 4 := by decide
  obtain ⟨final, answered, _, components, marks⟩ := detect_eq_recursion built_ringAndLoop small
  refine ⟨built_ringAndLoop, small, by decide +kernel, by decide +kernel, final, answered,
    components, (marks 1).2⟩

end Graph

end GraphsAndCaches
