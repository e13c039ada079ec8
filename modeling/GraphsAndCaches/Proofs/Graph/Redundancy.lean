import GraphsAndCaches.Proofs.Graph.Drafts
import GraphsAndCaches.Proofs.Graph.Simulation

/-!
# Redundant edges

An edge that a vertex has already, or one that leads from a vertex to itself, connects nothing
that was not connected. When it is added behind the other edges of its source, a traversal
takes one turn more, as the last one before it leaves the source. By then the target was met,
and it bounds the lowlink of the source no further: a target that is still open did so when
the edge before it was followed, or is the source itself. So the turn changes nothing but the
place in the frame.

All other turns are the same in both graphs, except that a vertex which gets an edge to itself
is known by it when it is closed alone. `addLoop` is this change. Hence the later traversal is
the earlier one with the loop added, turn by turn, visit by visit and as a whole.
-/

namespace GraphsAndCaches

universe u
variable {α : Type u} {graph later : Graph α} {source target : VertexId}

/-! ## What the edge adds -/

/-- A component once an edge from `source` to `target` has been added. -/
def Component.addLoop (source target : VertexId) (component : Component VertexId) :
    Component VertexId where
  members := component.members
  selfLoop := component.selfLoop || decide (source = target ∧ component.members = [source])

/-- What is told of such a component when it is closed. -/
def Diagnostic.addLoop (source target : VertexId) : Diagnostic → Diagnostic
  | .componentClosed root size selfLoop =>
      .componentClosed root size (selfLoop || decide (source = target ∧ size = 1 ∧ root = source))
  | other => other

namespace Progress

/-- The same progress with the loop added to what was closed. -/
def addLoop (source target : VertexId) (progress : Progress) : Progress where
  marks := progress.marks
  counter := progress.counter
  stack := progress.stack
  closed := progress.closed.map (Component.addLoop source target)
  journal := progress.journal.map (Diagnostic.addLoop source target)

variable {progress : Progress} {vertex : VertexId}

theorem addLoop_start (size : Nat) : (start size).addLoop source target = start size := by
  simp only [addLoop, start, Array.map_empty]

theorem met_addLoop : (progress.addLoop source target).Met vertex ↔ progress.Met vertex := Iff.rfl

/-- A bound that is no less than the lowlink changes nothing. -/
theorem lower_eq_self {bound : Nat} (le : progress.lowlink vertex ≤ bound) :
    progress.lower vertex bound = progress := by
  have same : progress.marks.modify vertex
      (Option.map fun mark => { mark with lowlink := min mark.lowlink bound }) =
        progress.marks := by
    refine Array.ext_getElem? fun position => ?_
    rw [Array.getElem?_modify]
    split
    · next here =>
        subst here
        simp only [lowlink, mark?] at le
        rcases stored : progress.marks[vertex]? with _ | _ | mark
        · rfl
        · rfl
        · rw [stored] at le
          have kept : min mark.lowlink bound = mark.lowlink := Nat.min_eq_left le
          rw [Option.map_some, Option.map_some, kept]
    · rfl
  rw [lower, same]

end Progress

namespace Graph

theorem target?_of_addEdge (accepted : graph.addEdge source target = (.ok (), later))
    {vertex other : VertexId} {position : Nat}
    (found : graph.target? vertex position = some other) :
    later.target? vertex position = some other := by
  rw [target?_eq] at found ⊢
  have inside := (List.getElem?_eq_some_iff.mp found).1
  rw [targets_of_addEdge accepted, List.getElem?_append_left inside, found]

/-- Where a vertex has no edge left, it has none in the later graph, unless it is the source and
has come to the edge that was added. -/
theorem target?_of_addEdge_of_exhausted (accepted : graph.addEdge source target = (.ok (), later))
    {vertex : VertexId} {position : Nat} (exhausted : graph.target? vertex position = none) :
    later.target? vertex position = none ∨
      vertex = source ∧ later.target? vertex position = some target ∧
        later.target? vertex (position + 1) = none := by
  rw [target?_eq_none_iff] at exhausted
  rw [target?_eq, target?_eq, targets_of_addEdge accepted]
  split
  · next same =>
      rcases Nat.lt_or_eq_of_le exhausted with beyond | last
      · exact .inl (List.getElem?_eq_none (by simpa using Nat.succ_le_of_lt beyond))
      · refine .inr ⟨same, ?_, List.getElem?_eq_none (by simp [last])⟩
        rw [← last, List.getElem?_concat_length]
  · next different =>
      exact .inl (List.getElem?_eq_none (by simpa using exhausted))

theorem hasSelfLoop_of_addEdge (accepted : graph.addEdge source target = (.ok (), later))
    (vertex : VertexId) :
    later.hasSelfLoop vertex =
      (graph.hasSelfLoop vertex || decide (source = target ∧ vertex = source)) := by
  rw [Bool.eq_iff_iff, Bool.or_eq_true, hasSelfLoop_iff, hasSelfLoop_iff, Edge, Edge,
    targets_of_addEdge accepted, List.mem_append, decide_eq_true_iff]
  refine or_congr_right ?_
  split
  · next same => simp [same]
  · next different => simp [different]

end Graph

/-! ## Turn by turn -/

namespace Progress

variable {progress : Progress} {vertex : VertexId}

/-- A component that is closed gets its loop in the later graph. -/
theorem addLoop_close (accepted : graph.addEdge source target = (.ok (), later))
    {above below : List VertexId} (stacked : progress.stack = above ++ vertex :: below)
    (absent : vertex ∉ above) :
    (progress.close graph vertex).addLoop source target =
      (progress.addLoop source target).close later vertex := by
  have told : ((above ++ [vertex]).length == 1 && later.hasSelfLoop vertex) =
      (((above ++ [vertex]).length == 1 && graph.hasSelfLoop vertex) ||
        decide (source = target ∧ (above ++ [vertex]).length = 1 ∧ vertex = source)) := by
    rw [Graph.hasSelfLoop_of_addEdge accepted, Bool.eq_iff_iff]
    simp only [Bool.and_eq_true, Bool.or_eq_true, beq_iff_eq, decide_eq_true_eq]
    tauto
  have alone : ((above ++ [vertex]).length = 1 ∧ vertex = source) ↔
      above ++ [vertex] = [source] := by
    cases above <;> simp
  have laterStacked : (progress.addLoop source target).stack = above ++ vertex :: below := stacked
  rw [close_eq stacked absent, close_eq laterStacked absent]
  simp only [addLoop, Array.map_push]
  rw [Component.addLoop, Diagnostic.addLoop]
  dsimp only
  simp only [told, alone]

theorem addLoop_finish (accepted : graph.addEdge source target = (.ok (), later))
    (orderly : progress.Orderly graph) (member : vertex ∈ progress.stack) :
    (progress.finish graph vertex).addLoop source target =
      (progress.addLoop source target).finish later vertex := by
  obtain ⟨above, below, stacked⟩ := List.append_of_mem member
  have closed := addLoop_close accepted stacked (orderly.not_mem_above stacked)
  simp only [finish, apply_ite (addLoop source target), closed]
  rfl

theorem addLoop_handOver (frames : List Frame) (bound : Nat) :
    (progress.handOver frames bound).addLoop source target =
      (progress.addLoop source target).handOver frames bound := by
  cases frames <;> rfl

end Progress

namespace Search

/-- The same search with the loop added to what was closed. -/
def addLoop (source target : VertexId) (search : Search) : Search where
  progress := search.progress.addLoop source target
  frames := search.frames

/-- When a vertex has followed its edges, its lowlink is bounded by every target that is still
open, and by itself. -/
theorem Coherent.bounded {progress : Progress} {frames : List Frame} {vertex other : VertexId}
    {next : Nat} (coherent : Coherent graph { progress, frames := { vertex, next } :: frames })
    (exhausted : graph.target? vertex next = none)
    (redundant : graph.Edge vertex other ∨ vertex = other) :
    progress.Followed (progress.lowlink vertex) other := by
  rcases redundant with edge | rfl
  · have layers := coherent.layers
    generalize progress.stack = stack at layers
    cases layers with
    | push rest layer entered =>
        exact layer.followed_edge exhausted (List.mem_append_right _ List.mem_cons_self) edge
  · have met : progress.Met vertex := coherent.met_of_frame List.mem_cons_self
    exact ⟨met, fun _ => coherent.orderly.lowlink_le_index vertex met⟩

/-- The turn that the later graph takes in addition changes the place in the frame only. -/
theorem leads_redundant {progress : Progress} {frames : List Frame} {vertex other : VertexId}
    {next : Nat} (coherent : Coherent later { progress, frames := { vertex, next } :: frames })
    (found : later.target? vertex next = some other)
    (followed : progress.Followed (progress.lowlink vertex) other) :
    Leads later { progress, frames := { vertex, next } :: frames }
      { progress, frames := { vertex, next := next + 1 } :: frames } := by
  by_cases isOpen : progress.Open other
  · have turn : Turn later { progress, frames := { vertex, next } :: frames } _ :=
      .bound found isOpen
    rw [Progress.lower_eq_self (followed.2 isOpen)] at turn
    exact turn.leads coherent
  · exact (Turn.skip found followed.1 isOpen).leads coherent

/-- Each turn on the graph is one turn on the later graph, or two when it leaves the source. -/
theorem Turn.leads_addLoop (accepted : graph.addEdge source target = (.ok (), later))
    (redundant : graph.Edge source target ∨ source = target) {before after : Search}
    (turn : Turn graph before after) (coherent : Coherent graph before)
    (laterCoherent : Coherent later (before.addLoop source target))
    (laterWellFormed : later.WellFormed) :
    Leads later (before.addLoop source target) (after.addLoop source target) := by
  cases turn with
  | descend found fresh =>
      refine Turn.leads ?_ laterCoherent
      exact .descend (Graph.target?_of_addEdge accepted found) fresh
  | bound found isOpen =>
      refine Turn.leads ?_ laterCoherent
      exact .bound (Graph.target?_of_addEdge accepted found) isOpen
  | skip found met isClosed =>
      refine Turn.leads ?_ laterCoherent
      exact .skip (Graph.target?_of_addEdge accepted found) met isClosed
  | @leave progress frames vertex next exhausted =>
      have stacked : vertex ∈ progress.stack := coherent.stacked_of_frame List.mem_cons_self
      simp only [addLoop, Progress.addLoop_handOver,
        Progress.addLoop_finish accepted coherent.orderly stacked]
      -- Only the source has an edge left in the later graph, and has to follow it first.
      rcases Graph.target?_of_addEdge_of_exhausted accepted exhausted with
        laterExhausted | ⟨rfl, found, laterExhausted⟩
      · exact (Turn.leave laterExhausted).leads laterCoherent
      · have passed := leads_redundant laterCoherent found
          (coherent.bounded exhausted redundant)
        exact passed.trans ((Turn.leave laterExhausted).leads
          (passed.coherent laterWellFormed laterCoherent))

end Search

/-! ## The whole traversal -/

namespace Graph

open Search (Coherent Leads Turn)

section

variable (accepted : graph.addEdge source target = (.ok (), later))
  (redundant : graph.Edge source target ∨ source = target)
include accepted redundant

/-- A visit of a root to the later graph is the visit to the graph with the loop added.

On the graph the visit ends without frames. Turn by turn the later search leads there as well,
and as it ends without frames too, it ends there. -/
theorem visit_addLoop (wellFormed : graph.WellFormed) (laterWellFormed : later.WellFormed)
    {progress : Progress} {root : Nat} (coherent : Coherent graph { progress, frames := [] })
    (laterCoherent : Coherent later { progress := progress.addLoop source target, frames := [] })
    (inside : root < graph.size) :
    later.visit later.turns (progress.addLoop source target) root =
      (graph.visit graph.turns progress root).addLoop source target := by
  by_cases met : progress.Met root
  · rw [visit_of_met met, visit_of_met (Progress.met_addLoop.mpr met)]
  · have laterInside : root < later.size := (size_of_addEdge accepted).symm ▸ inside
    have laterFresh : ¬ (progress.addLoop source target).Met root := met
    have entered := coherent_enter coherent inside met
    have laterEntered := coherent_enter laterCoherent laterInside laterFresh
    have turn : ∀ before after, Coherent graph before → Turn graph before after →
        Leads later (.enter { progress := progress.addLoop source target, frames := [] } root)
          (before.addLoop source target) →
        Leads later (.enter { progress := progress.addLoop source target, frames := [] } root)
          (after.addLoop source target) :=
      fun before after coherentBefore turn leads =>
        leads.trans (turn.leads_addLoop accepted redundant coherentBefore
          (leads.coherent laterWellFormed laterEntered) laterWellFormed)
    have leads := (entered.explore_invariant wellFormed turn (.refl _) graph.turns).2
    have finished := entered.explore_finishes wellFormed (remaining_enter_le coherent inside met)
    have laterFinished := laterEntered.explore_finishes laterWellFormed
      (remaining_enter_le laterCoherent laterInside laterFresh)
    rw [visit_of_not_met met, visit_of_not_met laterFresh,
      leads.explore_eq finished laterFinished]
    rfl

/-- So it is with visits of one root after another. -/
theorem visits_addLoop (wellFormed : graph.WellFormed) (laterWellFormed : later.WellFormed)
    {roots : List Nat} {progress : Progress} (inside : ∀ root ∈ roots, root < graph.size)
    (coherent : Coherent graph { progress, frames := [] })
    (laterCoherent : Coherent later { progress := progress.addLoop source target, frames := [] }) :
    roots.foldl (later.visit later.turns) (progress.addLoop source target) =
      (roots.foldl (graph.visit graph.turns) progress).addLoop source target := by
  induction roots generalizing progress with
  | nil => rfl
  | cons root rest inductionHypothesis =>
      have rootInside := inside root List.mem_cons_self
      have laterInside : root < later.size := (size_of_addEdge accepted).symm ▸ rootInside
      have visited := visit_addLoop accepted redundant wellFormed laterWellFormed coherent
        laterCoherent rootInside
      have laterAfter := (visit_spec laterWellFormed laterCoherent laterInside).1
      rw [visited] at laterAfter
      rw [List.foldl_cons, List.foldl_cons, visited]
      exact inductionHypothesis (fun other member => inside other (List.mem_cons_of_mem _ member))
        (visit_spec wellFormed coherent rootInside).1 laterAfter

/-- The traversal of the later graph is that of the graph with the loop added. -/
theorem traverse_addLoop (built : graph.Built) :
    later.traverse = graph.traverse.addLoop source target := by
  have same : later.size = graph.size := size_of_addEdge accepted
  have laterStart : Coherent later
      { progress := (Progress.start graph.size).addLoop source target, frames := [] } := by
    rw [Progress.addLoop_start, ← same]
    exact .start later
  have visited := visits_addLoop accepted redundant built.wellFormed
    (Built.addEdge built accepted).wellFormed (fun _ => mem_vertexIds.mp) (.start graph) laterStart
  rw [Progress.addLoop_start] at visited
  rw [traverse_eq, traverse_eq, vertexIds, same]
  exact visited

end

/-- The values of the members are looked up as before. -/
theorem valuesOf_addLoop (accepted : graph.addEdge source target = (.ok (), later))
    (component : Component VertexId) :
    (later.valuesOf (component.addLoop source target)).members =
      (graph.valuesOf component).members := by
  have values : later.value? = graph.value? := funext (value?_of_addEdge accepted)
  rw [valuesOf, valuesOf, Component.mapMembers, Component.mapMembers, values, Component.addLoop]

/-- Redundant edges are harmless. An edge that its source has already, or one from a vertex to
itself, is accepted. After it the detection pops the same vertices in the same order, component
by component, reports the same members, and leaves the same index and the same lowlink on every
vertex. The marks of loops are the same as well, except that a vertex with a new edge to itself
is marked when it is alone in its component. -/
theorem detect_addEdge_redundant (built : graph.Built)
    (redundant : graph.Edge source target ∨ source = target ∧ source < graph.size) :
    ∃ later, graph.addEdge source target = (.ok (), later) ∧
      later.popped = graph.popped ∧
      later.detect.components.toList.map Component.members =
        graph.detect.components.toList.map Component.members ∧
      later.detect.components.toList.map Component.selfLoop =
        List.zipWith (fun component members =>
            component.selfLoop || decide (source = target ∧ members = [source]))
          graph.detect.components.toList graph.popped ∧
      ∀ vertex,
        later.detect.graph.index? vertex = graph.detect.graph.index? vertex ∧
        later.detect.graph.lowlink? vertex = graph.detect.graph.lowlink? vertex := by
  have inside : source < graph.size ∧ target < graph.size := by
    rcases redundant with edge | ⟨rfl, inside⟩
    · exact ⟨edge.source_lt_size, built.wellFormed source target edge⟩
    · exact ⟨inside, inside⟩
  obtain ⟨later, accepted⟩ := (addEdge_isOk_iff graph source target).mpr inside
  have traversed := traverse_addLoop accepted (redundant.imp_right And.left) built
  have closed : later.traverse.closed.toList =
      graph.traverse.closed.toList.map (Component.addLoop source target) := by
    rw [traversed, Progress.addLoop, Array.toList_map]
  have components : graph.detect.components.toList =
      graph.traverse.closed.toList.map graph.valuesOf := rfl
  have laterComponents : later.detect.components.toList =
      later.traverse.closed.toList.map later.valuesOf := rfl
  have marks : ∀ vertex, later.detect.graph.mark? vertex = graph.detect.graph.mark? vertex := by
    intro vertex
    simp only [detect, mark?, traversed, Progress.addLoop]
  refine ⟨later, accepted, ?_, ?_, ?_, fun vertex => ?_⟩
  · rw [popped, popped, closed, List.map_map]
    rfl
  · rw [laterComponents, components, closed, List.map_map, List.map_map, List.map_map]
    exact List.map_congr_left fun component _ => valuesOf_addLoop accepted component
  · rw [laterComponents, components, popped, closed, List.zipWith_map, List.zipWith_self,
      List.map_map, List.map_map]
    rfl
  · simp only [index?, lowlink?, marks, and_self]

/-- An edge from the last vertex to itself marks its component, and a second edge along the ring
changes nothing. -/
theorem ringAndLoop_redundant :
    (ringAndLoop.Built ∧ 3 < ringAndLoop.size ∧
      ∃ later, ringAndLoop.addEdge 3 3 = (.ok (), later) ∧ later.popped = [[2], [1, 0], [3]] ∧
        later.detect.components.toList.map Component.selfLoop = [true, false, true]) ∧
      ringAndLoop.Edge 1 0 ∧
      ∃ later, ringAndLoop.addEdge 1 0 = (.ok (), later) ∧ later.popped = [[2], [1, 0], [3]] ∧
        later.detect.components.toList.map Component.selfLoop = [true, false, false] := by
  have popped : ringAndLoop.popped = [[2], [1, 0], [3]] := by decide +kernel
  have inside : 3 < ringAndLoop.size := by decide
  have edge : ringAndLoop.Edge 1 0 := by decide
  obtain ⟨later, accepted, same, _, flags, _⟩ :=
    detect_addEdge_redundant built_ringAndLoop (.inr ⟨rfl, inside⟩)
  obtain ⟨again, acceptedAgain, sameAgain, _, flagsAgain, _⟩ :=
    detect_addEdge_redundant built_ringAndLoop (.inl edge)
  refine ⟨⟨built_ringAndLoop, inside, later, accepted, same.trans popped, ?_⟩, edge, again,
    acceptedAgain, sameAgain.trans popped, ?_⟩
  · rw [flags]
    decide +kernel
  · rw [flagsAgain]
    decide +kernel

end Graph

end GraphsAndCaches
