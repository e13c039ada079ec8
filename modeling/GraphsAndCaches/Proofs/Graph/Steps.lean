import GraphsAndCaches.Proofs.Graph.Progress
import Mathlib.Data.Option.Basic

/-!
# A traversal step by step

A traversal is bounded by a number of turns, so that it ends by its form. Here it is told
without any bound, as a machine that does one step after another: it takes a turn while there
are frames, and otherwise turns to the next root, which it enters if it was not met before.
`Course` is a state of this machine, with a log of what has happened to the vertices and the
edges, and a count of the turns. The machine halts when there are neither frames nor roots.

`Course.accesses` lists the vertices that a step has to do with. It changes the marks of these
alone. And it looks at nothing else of the graph and of the marks: where two states, each over a
graph of its own, agree on these vertices, one step leads to states that still agree on them,
and have changed alike in all else.
-/

namespace GraphsAndCaches

universe u
variable {α : Type u} {graph : Graph α}

namespace Search

/-- What happens to a vertex, or to the edge of a vertex at a position. -/
inductive Event where
  | discovered (vertex : VertexId)
  | followed (vertex : VertexId) (position : Nat)
  | finished (vertex : VertexId)
deriving DecidableEq, Repr

/-- What happens in the next turn, in order. -/
def events (graph : Graph α) (search : Search) : List Event :=
  match search.frames with
  | [] => []
  | { vertex, next } :: _ =>
      match graph.target? vertex next with
      | none => [.finished vertex]
      | some target =>
          if search.progress.Met target then [.followed vertex next]
          else [.followed vertex next, .discovered target]

/-- The vertices that the next turn takes off the stack: the members of the component that it
closes, if it closes one. -/
def popped (graph : Graph α) (search : Search) : List VertexId :=
  ((search.step graph).progress.closed.toList.drop search.progress.closed.size).flatMap
    Component.members

end Search

/-- A traversal under way: the search, the roots whose time has not come, the number of turns
taken, and what has happened so far. -/
structure Course where
  search : Search
  roots : List VertexId
  turns : Nat := 0
  log : List Search.Event := []

namespace Course

/-- Before the first root. -/
def start (graph : Graph α) : Course where
  search := { progress := .start graph.size, frames := [] }
  roots := graph.vertexIds

/-- One step: a turn while there are frames, and otherwise the next root. -/
def next (graph : Graph α) (course : Course) : Option Course :=
  match course.search.frames, course.roots with
  | [], [] => none
  | [], root :: roots =>
      if course.search.progress.Met root then some { course with roots }
      else some { course with
        search := course.search.enter root
        roots
        log := course.log ++ [.discovered root] }
  | _ :: _, _ => some { course with
      search := course.search.step graph
      turns := course.turns + 1
      log := course.log ++ course.search.events graph }

/-- Steps lead from one state to the other. -/
def Reaches (graph : Graph α) : Course → Course → Prop :=
  Relation.ReflTransGen fun before after => before.next graph = some after

/-- The vertices that the next step reads or changes. When its time has come a root is looked
at. In a turn it is the present vertex and either the target of its edge, or, when the vertex
is finished, what is taken off the stack and the vertex that takes the lowlink over. -/
def accesses (graph : Graph α) (course : Course) : List VertexId :=
  match course.search.frames, course.roots with
  | [], [] => []
  | [], root :: _ => [root]
  | { vertex, next } :: frames, _ =>
      match graph.target? vertex next with
      | some target => [vertex, target]
      | none => vertex :: course.search.popped graph ++ (frames.head?.map Frame.vertex).toList

end Course

/-! ## Agreement on some vertices -/

variable {vertices : List VertexId}

/-- The same but for the marks of vertices that are not listed. -/
structure Progress.AgreeOn (vertices : List VertexId) (left right : Progress) : Prop where
  marks : ∀ vertex ∈ vertices, left.marks[vertex]? = right.marks[vertex]?
  counter : left.counter = right.counter
  stack : left.stack = right.stack
  closed : left.closed = right.closed
  journal : left.journal = right.journal

structure Search.AgreeOn (vertices : List VertexId) (left right : Search) : Prop where
  progress : left.progress.AgreeOn vertices right.progress
  frames : left.frames = right.frames

structure Course.AgreeOn (vertices : List VertexId) (left right : Course) : Prop where
  search : left.search.AgreeOn vertices right.search
  roots : left.roots = right.roots
  turns : left.turns = right.turns
  log : left.log = right.log

namespace Progress

/-- What is released of one array of marks is released of another. -/
theorem getElem?_release_congr {left right : Array (Option Mark)} {vertex : VertexId}
    (same : left[vertex]? = right[vertex]?) (members : List VertexId) :
    (release left members)[vertex]? = (release right members)[vertex]? := by
  induction members generalizing left right with
  | nil => exact same
  | cons member rest inductionHypothesis =>
      apply inductionHypothesis
      rw [Array.getElem?_modify, Array.getElem?_modify, same]

namespace AgreeOn

variable {left right : Progress} {vertex : VertexId}

theorem mark?_eq (agree : AgreeOn vertices left right) (member : vertex ∈ vertices) :
    left.mark? vertex = right.mark? vertex :=
  congrArg Option.join (agree.marks vertex member)

theorem met_iff (agree : AgreeOn vertices left right) (member : vertex ∈ vertices) :
    left.Met vertex ↔ right.Met vertex := by
  rw [Met, Met, agree.mark?_eq member]

theorem discover (agree : AgreeOn vertices left right) (vertex : VertexId) :
    AgreeOn vertices (left.discover vertex) (right.discover vertex) where
  marks other listed := by
    have place := agree.marks other listed
    simp only [Progress.discover, Array.getElem?_setIfInBounds, agree.counter]
    by_cases same : vertex = other
    · subst same
      have outside : left.marks.size ≤ vertex ↔ right.marks.size ≤ vertex := by
        rw [← Array.getElem?_eq_none_iff, place, Array.getElem?_eq_none_iff]
      simp only [if_true, ← Nat.not_le, outside]
    · rw [if_neg same, if_neg same, place]
  counter := congrArg (· + 1) agree.counter
  stack := congrArg (vertex :: ·) agree.stack
  closed := agree.closed
  journal := agree.journal

theorem lower (agree : AgreeOn vertices left right) (vertex : VertexId) (bound : Nat) :
    AgreeOn vertices (left.lower vertex bound) (right.lower vertex bound) where
  marks other listed := by
    simp only [Progress.lower, Array.getElem?_modify, agree.marks other listed]
  counter := agree.counter
  stack := agree.stack
  closed := agree.closed
  journal := agree.journal

theorem close {other : Graph α} (agree : AgreeOn vertices left right)
    (sameLoop : graph.hasSelfLoop vertex = other.hasSelfLoop vertex) :
    AgreeOn vertices (left.close graph vertex) (right.close other vertex) := by
  obtain ⟨leftMarks, counter, stack, closed, journal⟩ := left
  obtain ⟨rightMarks, _, _, _, _⟩ := right
  obtain ⟨marks, rfl, rfl, rfl, rfl⟩ := agree
  simp only [Progress.close, sameLoop]
  exact ⟨fun other listed => getElem?_release_congr (marks other listed) _, rfl, rfl, rfl, rfl⟩

end AgreeOn

end Progress

namespace Search

variable {left right : Search} {vertex target : VertexId}

theorem AgreeOn.enter (agree : AgreeOn vertices left right) (vertex : VertexId) :
    AgreeOn vertices (left.enter vertex) (right.enter vertex) where
  progress := agree.progress.discover vertex
  frames := congrArg (fun frames => ({ vertex } : Frame) :: frames) agree.frames

theorem AgreeOn.lower (agree : AgreeOn vertices left right) (vertex : VertexId) (bound : Nat) :
    AgreeOn vertices { left with progress := left.progress.lower vertex bound }
      { right with progress := right.progress.lower vertex bound } where
  progress := agree.progress.lower vertex bound
  frames := agree.frames

/-- Of the target of an edge the mark is looked at. -/
theorem AgreeOn.follow (agree : AgreeOn vertices left right) (listed : target ∈ vertices) :
    AgreeOn vertices (left.follow vertex target) (right.follow vertex target) := by
  have same := agree.progress.mark?_eq listed
  rw [Search.follow, Search.follow, ← same]
  cases left.progress.mark? target with
  | none => exact agree.enter target
  | some mark =>
      dsimp only
      split
      · exact agree.lower vertex mark.index
      · exact agree

/-- Of a vertex that is left the mark is looked at, and whether it has an edge to itself. -/
theorem AgreeOn.leave {other : Graph α} (agree : AgreeOn vertices left right)
    (listed : vertex ∈ vertices)
    (sameLoop : graph.hasSelfLoop vertex = other.hasSelfLoop vertex) :
    AgreeOn vertices (left.leave graph vertex) (right.leave other vertex) := by
  obtain ⟨leftProgress, frames⟩ := left
  obtain ⟨rightProgress, _⟩ := right
  obtain ⟨progress, rfl⟩ := agree
  have same := progress.mark?_eq listed
  rw [Search.leave, Search.leave, ← same]
  cases leftProgress.mark? vertex with
  | none => exact ⟨progress, rfl⟩
  | some mark =>
      have finished : Progress.AgreeOn vertices
          (if mark.index = mark.lowlink then leftProgress.close graph vertex else leftProgress)
          (if mark.index = mark.lowlink then rightProgress.close other vertex
            else rightProgress) := by
        split
        · exact progress.close sameLoop
        · exact progress
      cases frames with
      | nil => exact ⟨finished, rfl⟩
      | cons parent frames => exact ⟨finished.lower parent.vertex mark.lowlink, rfl⟩

variable {before after : Progress} {frames : List Frame} {next : Nat} {other : Graph α}

/-- A turn looks at the present vertex, at its edges, and at the target of the one it follows. -/
theorem agreeOn_step (agree : before.AgreeOn vertices after) (listed : vertex ∈ vertices)
    (targetListed : ∀ target, graph.target? vertex next = some target → target ∈ vertices)
    (sameEdges : graph.targets vertex = other.targets vertex) :
    AgreeOn vertices (step graph { progress := before, frames := { vertex, next } :: frames })
      (step other { progress := after, frames := { vertex, next } :: frames }) := by
  rw [step, step, ← Graph.target?_congr sameEdges]
  cases found : graph.target? vertex next with
  | none =>
      have present : AgreeOn vertices { progress := before, frames }
          { progress := after, frames } := ⟨agree, rfl⟩
      exact present.leave listed (Graph.hasSelfLoop_congr sameEdges)
  | some target =>
      have advanced : AgreeOn vertices
          { progress := before, frames := { vertex, next := next + 1 } :: frames }
          { progress := after, frames := { vertex, next := next + 1 } :: frames } := ⟨agree, rfl⟩
      exact advanced.follow (targetListed target found)

theorem events_eq (agree : before.AgreeOn vertices after)
    (targetListed : ∀ target, graph.target? vertex next = some target → target ∈ vertices)
    (sameEdges : graph.targets vertex = other.targets vertex) :
    events graph { progress := before, frames := { vertex, next } :: frames } =
      events other { progress := after, frames := { vertex, next } :: frames } := by
  simp only [events, ← Graph.target?_congr sameEdges]
  cases found : graph.target? vertex next with
  | none => rfl
  | some target => simp only [agree.met_iff (targetListed target found)]

end Search

/-! ## What a step changes -/

namespace Progress

variable {progress : Progress} {vertex other : VertexId}

theorem mark?_discover_of_ne (different : other ≠ vertex) :
    (progress.discover vertex).mark? other = progress.mark? other := by
  rw [mark?, discover, Array.getElem?_setIfInBounds_ne (Ne.symm different), mark?]

theorem mark?_lower_of_ne (different : other ≠ vertex) (bound : Nat) :
    (progress.lower vertex bound).mark? other = progress.mark? other := by
  rw [mark?_lower, if_neg different]

/-- Closing a component adds it to the closed ones, and changes the marks of its members. -/
theorem exists_component_close (progress : Progress) (graph : Graph α) (root : VertexId) :
    ∃ component, (progress.close graph root).closed.toList =
        progress.closed.toList ++ [component] ∧
      ∀ other ∉ component.members,
        (progress.close graph root).mark? other = progress.mark? other := by
  obtain ⟨marks, counter, stack, closed, journal⟩ := progress
  refine ⟨_, Array.toList_push, fun other outside => ?_⟩
  simp only [mark?, close, getElem?_release]
  exact if_neg outside

end Progress

namespace Search

variable {progress : Progress} {frames : List Frame} {vertex other : VertexId} {next : Nat}

/-- If a component is closed, no mark changes but those of its members. -/
theorem mark?_of_not_popped {closes : Prop} [Decidable closes]
    (notPopped : other ∉ ((if closes then progress.close graph vertex
      else progress).closed.toList.drop progress.closed.size).flatMap Component.members) :
    (if closes then progress.close graph vertex else progress).mark? other =
      progress.mark? other := by
  split at notPopped
  · next isRoot =>
      obtain ⟨component, closed, unchanged⟩ := progress.exists_component_close graph vertex
      rw [closed, ← Array.length_toList, List.drop_left, List.flatMap_singleton] at notPopped
      rw [if_pos isRoot]
      exact unchanged other notPopped
  · next isNoRoot => rw [if_neg isNoRoot]

/-- Leaving a vertex changes the marks of what it pops, and of the vertex that takes its lowlink
over. -/
theorem mark?_leave
    (notPopped : other ∉ ((leave { progress, frames } graph vertex).progress.closed.toList.drop
      progress.closed.size).flatMap Component.members)
    (notParent : other ∉ (frames.head?.map Frame.vertex).toList) :
    (leave { progress, frames } graph vertex).progress.mark? other = progress.mark? other := by
  rw [leave] at notPopped ⊢
  cases marked : progress.mark? vertex with
  | none => rfl
  | some mark =>
      rw [marked] at notPopped
      cases frames with
      | nil => exact mark?_of_not_popped notPopped
      | cons parent frames =>
          have notLowered : other ≠ parent.vertex := by simpa using notParent
          exact (Progress.mark?_lower_of_ne notLowered _).trans (mark?_of_not_popped notPopped)

/-- Following an edge changes the mark of one of its ends, if any. -/
theorem mark?_follow {search : Search} {target : VertexId} (notSource : other ≠ vertex)
    (notTarget : other ≠ target) :
    (search.follow vertex target).progress.mark? other = search.progress.mark? other := by
  rw [follow]
  cases search.progress.mark? target with
  | none => exact Progress.mark?_discover_of_ne notTarget
  | some mark =>
      dsimp only
      split
      · exact Progress.mark?_lower_of_ne notSource mark.index
      · rfl

end Search

namespace Course

variable {course : Course} {vertex : VertexId}

/-- In a turn the present vertex is looked at. -/
theorem mem_accesses_of_frame {position : Nat} {frames : List Frame}
    (first : course.search.frames = { vertex, next := position } :: frames) :
    vertex ∈ course.accesses graph := by
  rw [accesses, first]
  dsimp only
  split <;> exact List.mem_cons_self

/-- So is the target of its edge. -/
theorem mem_accesses_of_target {target : VertexId} {position : Nat} {frames : List Frame}
    (first : course.search.frames = { vertex, next := position } :: frames)
    (found : graph.target? vertex position = some target) : target ∈ course.accesses graph := by
  rw [accesses, first]
  dsimp only
  rw [found]
  exact List.mem_cons_of_mem vertex List.mem_cons_self

/-- A step changes no marks but those of the vertices that it has to do with. -/
theorem mark?_next {after : Course} (stepped : course.next graph = some after)
    (outside : vertex ∉ course.accesses graph) :
    after.search.progress.mark? vertex = course.search.progress.mark? vertex := by
  obtain ⟨⟨progress, frames⟩, roots, turns, log⟩ := course
  cases frames with
  | nil =>
      cases roots with
      | nil => exact nomatch stepped
      | cons root roots =>
          have notRoot : vertex ≠ root := List.ne_of_not_mem_cons outside
          simp only [next] at stepped
          split at stepped
          · obtain rfl := Option.some.inj stepped
            rfl
          · obtain rfl := Option.some.inj stepped
            exact Progress.mark?_discover_of_ne notRoot
  | cons frame frames =>
      obtain rfl := Option.some.inj stepped
      obtain ⟨present, next⟩ := frame
      simp only [accesses, Search.popped, Search.step] at outside ⊢
      cases found : graph.target? present next with
      | none =>
          rw [found, List.cons_append, List.mem_cons, List.mem_append, not_or, not_or] at outside
          obtain ⟨_, notPopped, notParent⟩ := outside
          exact Search.mark?_leave notPopped notParent
      | some target =>
          rw [found, List.mem_cons, List.mem_singleton, not_or] at outside
          exact Search.mark?_follow outside.1 outside.2

/-- Of the graph and of the marks a step looks at those vertices alone. Where another graph has
the same edges there, and another state agrees with this one on them, one step leads to states
that agree on them, or neither state has a next one. -/
theorem next_agreeOn {other : Course} {otherGraph : Graph α}
    (agree : AgreeOn (course.accesses graph) course other)
    (sameEdges : ∀ vertex ∈ course.accesses graph,
      graph.targets vertex = otherGraph.targets vertex) :
    Option.Rel (AgreeOn (course.accesses graph)) (course.next graph) (other.next otherGraph) := by
  obtain ⟨⟨before, frames⟩, roots, turns, log⟩ := course
  obtain ⟨⟨after, _⟩, _, _, _⟩ := other
  obtain ⟨⟨progress, rfl⟩, rfl, rfl, rfl⟩ := agree
  cases frames with
  | nil =>
      cases roots with
      | nil => exact .none
      | cons root roots =>
          have met_iff : before.Met root ↔ after.Met root := progress.met_iff List.mem_cons_self
          simp only [next]
          by_cases met : before.Met root
          · rw [if_pos met, if_pos (met_iff.mp met)]
            exact .some ⟨⟨progress, rfl⟩, rfl, rfl, rfl⟩
          · rw [if_neg met, if_neg (mt met_iff.mpr met)]
            exact .some ⟨⟨progress.discover root, rfl⟩, rfl, rfl, rfl⟩
  | cons frame frames =>
      obtain ⟨present, position⟩ := frame
      have edges := sameEdges present (mem_accesses_of_frame rfl)
      refine .some ⟨?_, rfl, rfl, congrArg (log ++ ·) ?_⟩
      · exact Search.agreeOn_step progress (mem_accesses_of_frame rfl)
          (fun target found => mem_accesses_of_target rfl found) edges
      · exact Search.events_eq progress
          (fun target found => mem_accesses_of_target rfl found) edges

end Course

end GraphsAndCaches
