import GraphsAndCaches.Proofs.Graph.Reachability
import Mathlib.Data.List.TakeDrop

/-!
# What the operations of a traversal do to the marks

A vertex is met once it has a mark, and open while that mark says so. `Met`,
`Open`, `index` and `lowlink` read the marks of a traversal under way, and each of
its three operations has one law for each of them: `discover` marks one vertex,
`lower` moves one lowlink down, and `close` takes the vertices of a component off
the stack.

`finish` and `handOver` name the two halves of leaving a vertex. With them a turn
of the search has five shapes, and `Turn` lists them: whatever is proved of a turn
is proved by these cases.
-/

namespace GraphsAndCaches

universe u
variable {α : Type u}

namespace Progress

/-- The traversal has come to the vertex. -/
def Met (progress : Progress) (vertex : VertexId) : Prop :=
  (progress.mark? vertex).isSome = true

/-- The vertex is marked as being on the stack. -/
def Open (progress : Progress) (vertex : VertexId) : Prop :=
  (progress.mark? vertex).any Mark.onStack = true

instance (progress : Progress) (vertex : VertexId) : Decidable (progress.Met vertex) :=
  inferInstanceAs (Decidable (_ = true))

instance (progress : Progress) (vertex : VertexId) : Decidable (progress.Open vertex) :=
  inferInstanceAs (Decidable (_ = true))

/-- When a met vertex was met. -/
def index (progress : Progress) (vertex : VertexId) : Nat :=
  (progress.mark? vertex).elim 0 Mark.index

/-- The lowlink of a met vertex. -/
def lowlink (progress : Progress) (vertex : VertexId) : Nat :=
  (progress.mark? vertex).elim 0 Mark.lowlink

theorem Open.met {progress : Progress} {vertex : VertexId}
    (isOpen : progress.Open vertex) : progress.Met vertex := by
  simp only [Open] at isOpen
  simp only [Met]
  cases found : progress.mark? vertex with
  | none => simp [found] at isOpen
  | some mark => rfl

theorem met_of_mark? {progress : Progress} {vertex : VertexId} {mark : Mark}
    (found : progress.mark? vertex = some mark) : progress.Met vertex := by
  simp [Met, found]

/-- Only vertices of the graph have marks. -/
theorem Met.lt_size {progress : Progress} {vertex : VertexId}
    (met : progress.Met vertex) : vertex < progress.marks.size := by
  simp only [Met, mark?] at met
  by_cases inside : vertex < progress.marks.size
  · exact inside
  · simp [Array.getElem?_eq_none (Nat.le_of_not_lt inside)] at met

/-! ## Before the traversal -/

theorem not_met_start (size : Nat) (vertex : VertexId) : ¬ (start size).Met vertex := by
  simp only [Met, mark?, start]
  rw [Array.getElem?_replicate]
  split <;> simp

@[simp]
theorem size_marks_start (size : Nat) : (start size).marks.size = size := by
  simp [start]

/-! ## Meeting a vertex -/

section Discover

variable {progress : Progress} {vertex : VertexId}

theorem mark?_discover (inside : vertex < progress.marks.size) (other : VertexId) :
    (progress.discover vertex).mark? other =
      if other = vertex then
        some { index := progress.counter, lowlink := progress.counter, onStack := true }
      else progress.mark? other := by
  simp only [mark?, discover, Array.getElem?_setIfInBounds, inside, if_true]
  by_cases same : other = vertex
  · simp [same]
  · have different : ¬ vertex = other := fun equal => same equal.symm
    simp [same, different]

theorem met_discover (inside : vertex < progress.marks.size) {other : VertexId} :
    (progress.discover vertex).Met other ↔ other = vertex ∨ progress.Met other := by
  simp only [Met]
  rw [mark?_discover inside]
  by_cases same : other = vertex <;> simp [same]

theorem open_discover (inside : vertex < progress.marks.size) {other : VertexId} :
    (progress.discover vertex).Open other ↔ other = vertex ∨ progress.Open other := by
  simp only [Open]
  rw [mark?_discover inside]
  by_cases same : other = vertex <;> simp [same]

theorem index_discover (inside : vertex < progress.marks.size) (other : VertexId) :
    (progress.discover vertex).index other =
      if other = vertex then progress.counter else progress.index other := by
  simp only [index]
  rw [mark?_discover inside]
  by_cases same : other = vertex <;> simp [same]

theorem lowlink_discover (inside : vertex < progress.marks.size) (other : VertexId) :
    (progress.discover vertex).lowlink other =
      if other = vertex then progress.counter else progress.lowlink other := by
  simp only [lowlink]
  rw [mark?_discover inside]
  by_cases same : other = vertex <;> simp [same]

@[simp]
theorem size_marks_discover : (progress.discover vertex).marks.size = progress.marks.size := by
  simp [discover]

@[simp]
theorem counter_discover : (progress.discover vertex).counter = progress.counter + 1 := rfl

@[simp]
theorem stack_discover : (progress.discover vertex).stack = vertex :: progress.stack := rfl

@[simp]
theorem closed_discover : (progress.discover vertex).closed = progress.closed := rfl

end Discover

/-! ## Lowering a lowlink -/

section Lower

variable {progress : Progress} {vertex : VertexId} {bound : Nat}

theorem mark?_lower (other : VertexId) :
    (progress.lower vertex bound).mark? other =
      if other = vertex then
        (progress.mark? other).map fun mark => { mark with lowlink := min mark.lowlink bound }
      else progress.mark? other := by
  simp only [mark?, lower, Array.getElem?_modify]
  by_cases same : other = vertex
  · subst same
    cases progress.marks[other]? with
    | none => simp
    | some mark => cases mark <;> simp
  · have different : ¬ vertex = other := fun equal => same equal.symm
    simp [same, different]

@[simp]
theorem met_lower {other : VertexId} :
    (progress.lower vertex bound).Met other ↔ progress.Met other := by
  simp only [Met]
  rw [mark?_lower]
  split <;> simp

@[simp]
theorem open_lower {other : VertexId} :
    (progress.lower vertex bound).Open other ↔ progress.Open other := by
  simp only [Open]
  rw [mark?_lower]
  split
  · cases progress.mark? other <;> simp
  · exact Iff.rfl

@[simp]
theorem index_lower (other : VertexId) :
    (progress.lower vertex bound).index other = progress.index other := by
  simp only [index]
  rw [mark?_lower]
  split
  · cases progress.mark? other <;> rfl
  · rfl

theorem lowlink_lower (other : VertexId) :
    (progress.lower vertex bound).lowlink other =
      if other = vertex then min (progress.lowlink other) bound
      else progress.lowlink other := by
  simp only [lowlink]
  rw [mark?_lower]
  split
  · cases progress.mark? other <;> simp
  · rfl

@[simp]
theorem size_marks_lower :
    (progress.lower vertex bound).marks.size = progress.marks.size := by
  simp [lower]

@[simp]
theorem counter_lower : (progress.lower vertex bound).counter = progress.counter := rfl

@[simp]
theorem stack_lower : (progress.lower vertex bound).stack = progress.stack := rfl

@[simp]
theorem closed_lower : (progress.lower vertex bound).closed = progress.closed := rfl

end Lower

/-! ## Closing a component -/

section Close

/-- Released vertices keep all of their marks but the place on the stack. -/
theorem getElem?_release (marks : Array (Option Mark)) (vertices : List VertexId)
    (other : VertexId) :
    (release marks vertices)[other]?.join =
      if other ∈ vertices then marks[other]?.join.map ({ · with onStack := false })
      else marks[other]?.join := by
  induction vertices generalizing marks with
  | nil => simp [release]
  | cons vertex rest inductionHypothesis =>
      have step : release marks (vertex :: rest) =
          release (marks.modify vertex (Option.map ({ · with onStack := false }))) rest := rfl
      rw [step, inductionHypothesis, Array.getElem?_modify]
      by_cases same : vertex = other
      · subst same
        cases marks[vertex]? with
        | none => simp
        | some mark => cases mark <;> simp
      · have different : ¬ other = vertex := fun equal => same equal.symm
        simp [same, different]

theorem size_release (marks : Array (Option Mark)) (vertices : List VertexId) :
    (release marks vertices).size = marks.size := by
  induction vertices generalizing marks with
  | nil => rfl
  | cons vertex rest inductionHypothesis =>
      exact (inductionHypothesis _).trans (by simp)

/-- A root splits the stack where it lies. -/
theorem span_root {above below : List VertexId} {root : VertexId} (absent : root ∉ above) :
    (above ++ root :: below).span (· != root) = (above, root :: below) := by
  have others : ∀ vertex ∈ above, (vertex != root) = true := by
    intro vertex member
    exact bne_iff_ne.mpr fun same => absent (same ▸ member)
  rw [List.span_eq_takeWhile_dropWhile, List.takeWhile_append_of_pos others,
    List.dropWhile_append_of_pos others]
  simp

variable {progress : Progress} {graph : Graph α} {root : VertexId}
  {above below : List VertexId}

/-- The component of a root is what lies above it on the stack, and the root itself. -/
theorem close_eq (stacked : progress.stack = above ++ root :: below) (absent : root ∉ above) :
    progress.close graph root =
      { marks := release progress.marks (above ++ [root])
        counter := progress.counter
        stack := below
        closed := progress.closed.push
          { members := above ++ [root]
            selfLoop := (above ++ [root]).length == 1 && graph.hasSelfLoop root }
        journal := progress.journal.push (.componentClosed root (above ++ [root]).length
          ((above ++ [root]).length == 1 && graph.hasSelfLoop root)) } := by
  obtain ⟨marks, counter, stack, closed, journal⟩ := progress
  subst stacked
  simp only [close, span_root absent, List.take_succ_cons, List.take_zero, List.drop_succ_cons,
    List.drop_zero]

theorem mark?_close (stacked : progress.stack = above ++ root :: below)
    (absent : root ∉ above) (other : VertexId) :
    (progress.close graph root).mark? other =
      if other ∈ above ++ [root] then (progress.mark? other).map ({ · with onStack := false })
      else progress.mark? other := by
  rw [close_eq stacked absent]
  exact getElem?_release progress.marks (above ++ [root]) other

theorem met_close (stacked : progress.stack = above ++ root :: below) (absent : root ∉ above)
    {other : VertexId} : (progress.close graph root).Met other ↔ progress.Met other := by
  simp only [Met]
  rw [mark?_close stacked absent]
  split <;> simp

theorem open_close (stacked : progress.stack = above ++ root :: below) (absent : root ∉ above)
    {other : VertexId} :
    (progress.close graph root).Open other ↔ progress.Open other ∧ other ∉ above ++ [root] := by
  simp only [Open]
  rw [mark?_close stacked absent]
  split
  · next member => cases progress.mark? other <;> simp [member]
  · next outside => simp [outside]

theorem index_close (stacked : progress.stack = above ++ root :: below)
    (absent : root ∉ above) (other : VertexId) :
    (progress.close graph root).index other = progress.index other := by
  simp only [index]
  rw [mark?_close stacked absent]
  split
  · cases progress.mark? other <;> rfl
  · rfl

theorem lowlink_close (stacked : progress.stack = above ++ root :: below)
    (absent : root ∉ above) (other : VertexId) :
    (progress.close graph root).lowlink other = progress.lowlink other := by
  simp only [lowlink]
  rw [mark?_close stacked absent]
  split
  · cases progress.mark? other <;> rfl
  · rfl

theorem size_marks_close (stacked : progress.stack = above ++ root :: below)
    (absent : root ∉ above) : (progress.close graph root).marks.size = progress.marks.size := by
  rw [close_eq stacked absent]
  exact size_release _ _

theorem counter_close (stacked : progress.stack = above ++ root :: below)
    (absent : root ∉ above) : (progress.close graph root).counter = progress.counter := by
  rw [close_eq stacked absent]

theorem stack_close (stacked : progress.stack = above ++ root :: below)
    (absent : root ∉ above) : (progress.close graph root).stack = below := by
  rw [close_eq stacked absent]

theorem closed_close (stacked : progress.stack = above ++ root :: below)
    (absent : root ∉ above) :
    (progress.close graph root).closed.toList =
      progress.closed.toList ++
        [{ members := above ++ [root]
           selfLoop := (above ++ [root]).length == 1 && graph.hasSelfLoop root }] := by
  rw [close_eq stacked absent, Array.toList_push]

end Close

/-! ## Leaving a vertex -/

/-- The first half of leaving a vertex: a root closes its component. -/
def finish (progress : Progress) (graph : Graph α) (vertex : VertexId) : Progress :=
  if progress.index vertex = progress.lowlink vertex then progress.close graph vertex
  else progress

/-- The second half of leaving a vertex: the one from which it was met, if there is
one, takes over its lowlink. -/
def handOver (progress : Progress) (frames : List Frame) (bound : Nat) : Progress :=
  match frames with
  | [] => progress
  | parent :: _ => progress.lower parent.vertex bound

end Progress

namespace Search

/-- The shapes of a turn. An edge to a vertex that was not met before descends
there; one to an open vertex bounds the lowlink; one to a closed vertex is skipped.
Where no edge is left the vertex is left. -/
inductive Turn (graph : Graph α) : Search → Search → Prop where
  | descend {progress : Progress} {frames : List Frame} {vertex target : VertexId} {next : Nat}
      (found : graph.target? vertex next = some target) (fresh : ¬ progress.Met target) :
      Turn graph { progress, frames := { vertex, next } :: frames }
        { progress := progress.discover target,
          frames := { vertex := target } :: { vertex, next := next + 1 } :: frames }
  | bound {progress : Progress} {frames : List Frame} {vertex target : VertexId} {next : Nat}
      (found : graph.target? vertex next = some target) (isOpen : progress.Open target) :
      Turn graph { progress, frames := { vertex, next } :: frames }
        { progress := progress.lower vertex (progress.index target),
          frames := { vertex, next := next + 1 } :: frames }
  | skip {progress : Progress} {frames : List Frame} {vertex target : VertexId} {next : Nat}
      (found : graph.target? vertex next = some target) (met : progress.Met target)
      (isClosed : ¬ progress.Open target) :
      Turn graph { progress, frames := { vertex, next } :: frames }
        { progress, frames := { vertex, next := next + 1 } :: frames }
  | leave {progress : Progress} {frames : List Frame} {vertex : VertexId} {next : Nat}
      (exhausted : graph.target? vertex next = none) :
      Turn graph { progress, frames := { vertex, next } :: frames }
        { progress := (progress.finish graph vertex).handOver frames (progress.lowlink vertex),
          frames }

/-- To leave a met vertex is to finish it and to hand its lowlink over. -/
theorem leave_eq {graph : Graph α} {progress : Progress} {frames : List Frame}
    {vertex : VertexId} (met : progress.Met vertex) :
    leave { progress, frames } graph vertex =
      { progress := (progress.finish graph vertex).handOver frames (progress.lowlink vertex),
        frames } := by
  simp only [leave]
  cases marked : progress.mark? vertex with
  | none => simp [Progress.Met, marked] at met
  | some mark =>
      simp only [Progress.finish, Progress.index, Progress.lowlink, marked, Option.elim_some]
      cases frames <;> rfl

theorem follow_of_not_met {search : Search} {vertex target : VertexId}
    (fresh : ¬ search.progress.Met target) : follow search vertex target = search.enter target := by
  simp only [follow]
  cases marked : search.progress.mark? target with
  | none => rfl
  | some mark => exact absurd (Progress.met_of_mark? marked) fresh

theorem follow_of_open {search : Search} {vertex target : VertexId}
    (isOpen : search.progress.Open target) :
    follow search vertex target =
      { search with
        progress := search.progress.lower vertex (search.progress.index target) } := by
  simp only [follow]
  cases marked : search.progress.mark? target with
  | none => simp [Progress.Open, marked] at isOpen
  | some mark =>
      have onStack : mark.onStack = true := by
        simpa only [Progress.Open, marked, Option.any_some] using isOpen
      simp only [onStack, if_true, Progress.index, marked, Option.elim_some]

theorem follow_of_not_open {search : Search} {vertex target : VertexId}
    (met : search.progress.Met target) (isClosed : ¬ search.progress.Open target) :
    follow search vertex target = search := by
  simp only [follow]
  cases marked : search.progress.mark? target with
  | none => simp [Progress.Met, marked] at met
  | some mark =>
      have released : ¬ mark.onStack = true := by
        simpa only [Progress.Open, marked, Option.any_some] using isClosed
      simp only [released]
      rfl

/-- Every turn from a vertex that was met has one of the shapes. -/
theorem turn_step {graph : Graph α} {progress : Progress} {frame : Frame}
    {frames : List Frame} (met : progress.Met frame.vertex) :
    Turn graph { progress, frames := frame :: frames }
      (step graph { progress, frames := frame :: frames }) := by
  obtain ⟨vertex, next⟩ := frame
  rw [step]
  cases found : graph.target? vertex next with
  | none =>
      rw [leave_eq met]
      exact .leave found
  | some target =>
      dsimp only
      by_cases known : progress.Met target
      · by_cases isOpen : progress.Open target
        · rw [follow_of_open isOpen]
          exact .bound found isOpen
        · rw [follow_of_not_open known isOpen]
          exact .skip found known isOpen
      · rw [follow_of_not_met known]
        exact .descend found known

end Search

end GraphsAndCaches
