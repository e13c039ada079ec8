import GraphsAndCaches.Proofs.Graph.Coherence
import Mathlib.Algebra.BigOperators.Group.List.Basic
import Mathlib.Algebra.Order.BigOperators.Group.List
import Mathlib.Algebra.Order.Group.Nat
import Mathlib.Algebra.GroupWithZero.Nat

/-!
# The work of a traversal

Every edge is followed once and every vertex is left once. `remaining` counts what
is left of both: the edges that the frames have not followed yet and the frames
themselves, and, for each vertex that was not met, its edges and itself. Every turn
lowers this number by exactly one. A search that may take as many turns therefore
ends without frames, and the turns of the whole graph are enough for every root.

With this a traversal is known to be complete: it ends coherent, without frames and
with every vertex met.
-/

namespace GraphsAndCaches

universe u
variable {α : Type u} {graph : Graph α}

/-- The vertices of a graph that a traversal has not met, in order. -/
def Progress.unmet (graph : Graph α) (progress : Progress) : List VertexId :=
  graph.vertexIds.filter fun vertex => !decide (progress.Met vertex)

/-- What a vertex costs: one turn for each of its edges, and one to leave it. -/
def Graph.cost (graph : Graph α) (vertex : VertexId) : Nat :=
  (graph.targets vertex).length + 1

/-- What is left to do at a frame. -/
def Frame.remaining (graph : Graph α) (frame : Frame) : Nat :=
  (graph.targets frame.vertex).length - frame.next + 1

/-- What is left to do in a search. -/
def Search.remaining (graph : Graph α) (search : Search) : Nat :=
  (search.frames.map (Frame.remaining graph)).sum +
    ((search.progress.unmet graph).map graph.cost).sum

namespace Graph

theorem mem_vertexIds {vertex : Nat} : vertex ∈ graph.vertexIds ↔ vertex < graph.size :=
  List.mem_range

theorem nodup_vertexIds (graph : Graph α) : graph.vertexIds.Nodup := List.nodup_range

/-- The edges are those of the vertices together. -/
theorem edgeCount_eq (graph : Graph α) :
    graph.edgeCount = (graph.vertexIds.map fun vertex => (graph.targets vertex).length).sum := by
  have counted : graph.edgeCount = (graph.vertices.toList.map (·.edges.size)).sum := by
    simp only [edgeCount]
    rw [← Array.foldl_toList, List.sum_eq_foldl, List.foldl_map]
  have listed : graph.vertices.toList.map (·.edges.size) =
      graph.vertexIds.map fun vertex => (graph.targets vertex).length := by
    apply List.ext_getElem
    · simp [vertexIds, size]
    · intro position inLeft inRight
      have inside : position < graph.vertices.size := by simpa using inLeft
      simp [vertexIds, targets, edges?, Array.getElem?_eq_getElem inside]
  rw [counted, listed]

/-- The turns of a traversal are the costs of all vertices. -/
theorem turns_eq (graph : Graph α) : graph.turns = (graph.vertexIds.map graph.cost).sum := by
  have split : ∀ vertices : List VertexId, (vertices.map graph.cost).sum =
      vertices.length + (vertices.map fun vertex => (graph.targets vertex).length).sum := by
    intro vertices
    induction vertices with
    | nil => rfl
    | cons vertex rest inductionHypothesis =>
        simp only [List.map_cons, List.sum_cons, List.length_cons, inductionHypothesis, cost]
        omega
  rw [split, turns, edgeCount_eq, vertexIds, List.length_range]

end Graph

namespace Progress

variable {progress : Progress}

/-- A vertex that is met is taken from the unmet ones. -/
theorem unmet_discover {vertex : VertexId} (inside : vertex < progress.marks.size) :
    (progress.discover vertex).unmet graph = (progress.unmet graph).erase vertex := by
  have nodup : (progress.unmet graph).Nodup := graph.nodup_vertexIds.filter _
  rw [nodup.erase_eq_filter, unmet, unmet, List.filter_filter]
  apply List.filter_congr
  intro other _
  rw [Bool.eq_iff_iff]
  simp [met_discover inside]

theorem unmet_congr {before after : Progress}
    (same : ∀ vertex, after.Met vertex ↔ before.Met vertex) :
    after.unmet graph = before.unmet graph := by
  simp only [unmet, same]

theorem mem_unmet {vertex : Nat} :
    vertex ∈ progress.unmet graph ↔ vertex < graph.size ∧ ¬ progress.Met vertex := by
  simp [unmet, Graph.mem_vertexIds]

/-- What was met stays met, whatever a vertex does when it is left. -/
theorem met_handOver {frames : List Frame} {bound : Nat} {vertex : VertexId} :
    (progress.handOver frames bound).Met vertex ↔ progress.Met vertex := by
  cases frames with
  | nil => exact Iff.rfl
  | cons parent frames => exact met_lower

/-- To hand a lowlink over closes nothing. -/
theorem closed_handOver {frames : List Frame} {bound : Nat} :
    (progress.handOver frames bound).closed = progress.closed := by
  cases frames with
  | nil => rfl
  | cons parent frames => exact closed_lower

/-- Only the vertex that takes a lowlink over may get another one. -/
theorem lowlink_handOver {frames : List Frame} {bound : Nat} {vertex : VertexId}
    (other : ∀ parent ∈ frames.head?, vertex ≠ parent.vertex) :
    (progress.handOver frames bound).lowlink vertex = progress.lowlink vertex := by
  cases frames with
  | nil => rfl
  | cons parent frames =>
      rw [handOver, lowlink_lower, if_neg (other parent rfl)]

/-- To finish a vertex changes no lowlink. -/
theorem lowlink_finish (orderly : progress.Orderly graph) {vertex : VertexId}
    (member : vertex ∈ progress.stack) (other : VertexId) :
    (progress.finish graph vertex).lowlink other = progress.lowlink other := by
  simp only [finish]
  split
  · obtain ⟨above, below, stacked⟩ := List.append_of_mem member
    exact lowlink_close stacked (orderly.not_mem_above stacked) other
  · rfl

end Progress

namespace Search

/-- To finish a vertex changes nothing in what was met. -/
theorem Coherent.met_finish {search : Search} (coherent : Coherent graph search)
    {frame : Frame} (member : frame ∈ search.frames) {vertex : VertexId} :
    (search.progress.finish graph frame.vertex).Met vertex ↔ search.progress.Met vertex := by
  simp only [Progress.finish]
  split
  · obtain ⟨above, below, stacked, absent⟩ := coherent.stack_split member
    exact Progress.met_close stacked absent
  · exact Iff.rfl

/-- To leave a vertex changes nothing in what was met. -/
theorem Coherent.met_leave {search : Search} (coherent : Coherent graph search)
    {frame : Frame} (member : frame ∈ search.frames) {frames : List Frame} {bound : Nat}
    {vertex : VertexId} :
    ((search.progress.finish graph frame.vertex).handOver frames bound).Met vertex ↔
      search.progress.Met vertex :=
  Progress.met_handOver.trans (coherent.met_finish member)

/-- To leave a vertex changes no lowlink but that of the vertex from which it was met. -/
theorem Coherent.lowlink_leave {search : Search} (coherent : Coherent graph search)
    {frame : Frame} (member : frame ∈ search.frames) {frames : List Frame} {bound : Nat}
    {vertex : VertexId} (outside : vertex ∉ frames.map Frame.vertex) :
    ((search.progress.finish graph frame.vertex).handOver frames bound).lowlink vertex =
      search.progress.lowlink vertex := by
  have noParent : ∀ parent ∈ frames.head?, vertex ≠ parent.vertex := by
    rintro parent first rfl
    exact outside (List.mem_map_of_mem (List.mem_of_mem_head? first))
  rw [Progress.lowlink_handOver noParent,
    Progress.lowlink_finish coherent.orderly (coherent.stacked_of_frame member)]

/-- A turn meets at most one new vertex and forgets none. -/
theorem Turn.met_mono {before after : Search} (turn : Turn graph before after)
    (wellFormed : graph.WellFormed) (coherent : Coherent graph before) {vertex : VertexId}
    (met : before.progress.Met vertex) : after.progress.Met vertex := by
  cases turn with
  | @descend progress frames source target next found fresh =>
      exact (Progress.met_discover (coherent.marked_target wellFormed found)).mpr (.inr met)
  | bound found isOpen => exact Progress.met_lower.mpr met
  | skip found targetMet isClosed => exact met
  | leave exhausted =>
      exact (coherent.met_leave List.mem_cons_self).mpr met

/-- A component that is closed in a turn is what lies on the stack down to a root. -/
theorem Turn.closed_cases {before after : Search} (turn : Turn graph before after)
    (coherent : Coherent graph before) {component : Component VertexId}
    (closed : component ∈ after.progress.closed.toList) :
    component ∈ before.progress.closed.toList ∨
      ∃ above root below, before.progress.stack = above ++ root :: below ∧
        component =
          { members := above ++ [root]
            selfLoop := (above ++ [root]).length == 1 && graph.hasSelfLoop root } := by
  cases turn with
  | descend found fresh => exact .inl closed
  | bound found isOpen => exact .inl closed
  | skip found met isClosed => exact .inl closed
  | @leave progress frames vertex next exhausted =>
      rw [Progress.closed_handOver, Progress.finish] at closed
      split at closed
      · obtain ⟨above, below, stacked, absent⟩ := coherent.stack_split List.mem_cons_self
        rw [Progress.closed_close stacked absent, List.mem_append, List.mem_singleton] at closed
        exact closed.imp id fun new => ⟨above, vertex, below, stacked, new⟩
      · exact .inl closed

/-- Meeting a vertex turns its cost into what is left to do at its frame. -/
theorem remaining_discover {progress : Progress} {vertex : Nat} {frames : List Frame}
    (marked : progress.marks.size = graph.size) (inside : vertex < graph.size)
    (fresh : ¬ progress.Met vertex) :
    remaining graph { progress := progress.discover vertex, frames := { vertex } :: frames } =
      remaining graph { progress, frames } := by
  have costs := List.sum_map_erase graph.cost (Progress.mem_unmet.mpr ⟨inside, fresh⟩)
  have taken : (progress.discover vertex).unmet graph = (progress.unmet graph).erase vertex :=
    Progress.unmet_discover (marked ▸ inside)
  simp only [remaining, List.map_cons, List.sum_cons, taken]
  rw [← costs]
  simp only [Frame.remaining, Graph.cost]
  omega

/-- Following an edge is one turn of its frame. -/
theorem remaining_advance {progress : Progress} {vertex target : VertexId} {next : Nat}
    {frames : List Frame} (found : graph.target? vertex next = some target) :
    remaining graph { progress, frames := { vertex, next } :: frames } =
      remaining graph { progress, frames := { vertex, next := next + 1 } :: frames } + 1 := by
  have inside : next < (graph.targets vertex).length := by
    by_contra beyond
    have none := Graph.target?_eq_none_iff.mpr (Nat.le_of_not_lt beyond)
    exact nomatch found.symm.trans none
  simp only [remaining, List.map_cons, List.sum_cons, Frame.remaining]
  omega

/-- What is left to do depends on the marks only through what was met. -/
theorem remaining_congr {before after : Progress} {frames : List Frame}
    (same : ∀ vertex, after.Met vertex ↔ before.Met vertex) :
    remaining graph { progress := after, frames } =
      remaining graph { progress := before, frames } := by
  simp only [remaining, Progress.unmet_congr same]

/-- Every turn does exactly one piece of what is left to do. -/
theorem Turn.remaining_eq {before after : Search} (turn : Turn graph before after)
    (wellFormed : graph.WellFormed) (coherent : Coherent graph before) :
    remaining graph before = remaining graph after + 1 := by
  cases turn with
  | @descend progress frames vertex target next found fresh =>
      have inside : target < graph.size :=
        wellFormed vertex target (Graph.edge_of_target? found)
      rw [remaining_discover coherent.orderly.size_marks inside fresh]
      exact remaining_advance found
  | bound found isOpen =>
      rw [remaining_congr fun _ => Progress.met_lower]
      exact remaining_advance found
  | skip found met isClosed => exact remaining_advance found
  | @leave progress frames vertex next exhausted =>
      have beyond := Graph.target?_eq_none_iff.mp exhausted
      rw [remaining_congr fun _ => coherent.met_leave List.mem_cons_self]
      simp only [remaining, List.map_cons, List.sum_cons, Frame.remaining]
      omega

/-- A turn of a coherent search that has frames left, as the search takes it. -/
theorem Coherent.turn_step {search : Search} (coherent : Coherent graph search)
    (unfinished : search.frames ≠ []) : Turn graph search (step graph search) := by
  obtain ⟨progress, frames⟩ := search
  cases frames with
  | nil => exact absurd rfl unfinished
  | cons frame frames => exact Search.turn_step (coherent.met_of_frame List.mem_cons_self)

/-- An invariant of the turns is an invariant of the search. -/
theorem Coherent.explore_invariant {kept : Search → Prop} (wellFormed : graph.WellFormed)
    (step : ∀ before after, Coherent graph before → Turn graph before after →
      kept before → kept after)
    {search : Search} (coherent : Coherent graph search) (start : kept search) (turns : Nat) :
    Coherent graph (explore graph turns search) ∧ kept (explore graph turns search) := by
  induction turns generalizing search with
  | zero => exact ⟨coherent, start⟩
  | succ turns inductionHypothesis =>
      by_cases finished : search.frames = []
      · rw [explore_of_frames_eq_nil graph _ finished]
        exact ⟨coherent, start⟩
      · have turn := coherent.turn_step finished
        simp only [explore, List.isEmpty_iff, finished, if_false]
        exact inductionHypothesis (coherent.turn wellFormed turn) (step _ _ coherent turn start)

theorem Coherent.explored (wellFormed : graph.WellFormed) {search : Search}
    (coherent : Coherent graph search) (turns : Nat) :
    Coherent graph (explore graph turns search) :=
  (coherent.explore_invariant wellFormed (fun _ _ _ _ _ => trivial) trivial turns).1

/-- What was met once stays met. -/
theorem Coherent.explore_met_mono (wellFormed : graph.WellFormed) {search : Search}
    (coherent : Coherent graph search) (turns : Nat) (vertex : VertexId)
    (met : search.progress.Met vertex) : (Search.explore graph turns search).progress.Met vertex :=
  (coherent.explore_invariant wellFormed
    (fun _ _ coherentBefore turn known => turn.met_mono wellFormed coherentBefore known)
    met turns).2

/-- As many turns as there is left to do leave no frame. -/
theorem Coherent.explore_finishes (wellFormed : graph.WellFormed) {search : Search}
    (coherent : Coherent graph search) {turns : Nat}
    (enough : remaining graph search ≤ turns) : (explore graph turns search).frames = [] := by
  induction turns generalizing search with
  | zero =>
      rw [explore]
      cases frames : search.frames with
      | nil => rfl
      | cons frame rest =>
          simp only [remaining, frames, List.map_cons, List.sum_cons, Frame.remaining] at enough
          omega
  | succ turns inductionHypothesis =>
      by_cases finished : search.frames = []
      · rw [explore_of_frames_eq_nil graph _ finished]
        exact finished
      · have turn := coherent.turn_step finished
        have less := turn.remaining_eq wellFormed coherent
        simp only [explore, List.isEmpty_iff, finished, if_false]
        exact inductionHypothesis (coherent.turn wellFormed turn) (by omega)

end Search

namespace Graph

open Search (Coherent)

/-- A root that was not met before may be entered. -/
theorem coherent_enter {progress : Progress} {root : Nat}
    (coherent : Coherent graph { progress, frames := [] }) (inside : root < graph.size)
    (fresh : ¬ progress.Met root) :
    Coherent graph (Search.enter { progress, frames := [] } root) := by
  have layers := coherent.layers.keep (coherent.keeps_discover inside fresh)
  exact coherent.enter inside fresh layers fun parent first => nomatch first

/-- No search takes more turns than the whole traversal. -/
theorem remaining_enter_le {progress : Progress} {root : Nat}
    (coherent : Coherent graph { progress, frames := [] }) (inside : root < graph.size)
    (fresh : ¬ progress.Met root) :
    Search.remaining graph (Search.enter { progress, frames := [] } root) ≤ graph.turns := by
  have same : Search.remaining graph (Search.enter { progress, frames := [] } root) =
      Search.remaining graph { progress, frames := [] } :=
    Search.remaining_discover coherent.orderly.size_marks inside fresh
  have part : (progress.unmet graph).Sublist graph.vertexIds := List.filter_sublist
  rw [same, turns_eq]
  simp only [Search.remaining, List.map_nil, List.sum_nil, Nat.zero_add]
  exact (part.map graph.cost).sum_le_sum fun _ _ => Nat.zero_le _

theorem visit_of_met {turns : Nat} {progress : Progress} {root : VertexId}
    (met : progress.Met root) : graph.visit turns progress root = progress :=
  if_pos met

theorem visit_of_not_met {turns : Nat} {progress : Progress} {root : VertexId}
    (fresh : ¬ progress.Met root) :
    graph.visit turns progress root =
      (Search.explore graph turns (Search.enter { progress, frames := [] } root)).progress :=
  if_neg fresh

/-- A visit ends without frames, meets its root, and forgets nothing. -/
theorem visit_spec (wellFormed : graph.WellFormed) {progress : Progress} {root : Nat}
    (coherent : Coherent graph { progress, frames := [] }) (inside : root < graph.size) :
    Coherent graph { progress := graph.visit graph.turns progress root, frames := [] } ∧
      (graph.visit graph.turns progress root).Met root ∧
      ∀ vertex, progress.Met vertex → (graph.visit graph.turns progress root).Met vertex := by
  by_cases met : progress.Met root
  · rw [visit_of_met met]
    exact ⟨coherent, met, fun _ known => known⟩
  · rw [visit_of_not_met met]
    have marked : root < progress.marks.size := coherent.orderly.size_marks ▸ inside
    have entered := coherent_enter coherent inside met
    have finished := entered.explore_finishes wellFormed (remaining_enter_le coherent inside met)
    have keepsMet := entered.explore_met_mono wellFormed graph.turns
    have explored := entered.explored wellFormed graph.turns
    have layers := explored.layers
    rw [finished] at layers
    refine ⟨⟨explored.orderly, explored.settled, layers⟩, ?_, ?_⟩
    · exact keepsMet root ((Progress.met_discover marked).mpr (.inl rfl))
    · exact fun vertex known => keepsMet vertex ((Progress.met_discover marked).mpr (.inr known))

/-- Visits of some roots end without frames, meet these roots, and forget nothing. -/
theorem visits_complete (wellFormed : graph.WellFormed) {roots : List Nat} {progress : Progress}
    (inside : ∀ root ∈ roots, root < graph.size)
    (coherent : Coherent graph { progress, frames := [] }) :
    Coherent graph { progress := roots.foldl (graph.visit graph.turns) progress, frames := [] } ∧
      ∀ vertex, vertex ∈ roots ∨ progress.Met vertex →
        (roots.foldl (graph.visit graph.turns) progress).Met vertex := by
  induction roots generalizing progress with
  | nil => exact ⟨coherent, fun vertex known => known.resolve_left List.not_mem_nil⟩
  | cons root rest inductionHypothesis =>
      obtain ⟨after, rootMet, keepsMet⟩ :=
        visit_spec wellFormed coherent (inside root List.mem_cons_self)
      obtain ⟨coherentEnd, allMet⟩ := inductionHypothesis
        (fun other member => inside other (List.mem_cons_of_mem _ member)) after
      refine ⟨coherentEnd, fun vertex known => allMet vertex ?_⟩
      rcases known with member | met
      · rcases List.mem_cons.mp member with rfl | later
        · exact .inr rootMet
        · exact .inl later
      · exact .inr (keepsMet vertex met)

/-- The traversal ends coherent and without frames, and has met every vertex. -/
theorem traverse_complete (wellFormed : graph.WellFormed) :
    Coherent graph { progress := graph.traverse, frames := [] } ∧
      ∀ vertex < graph.size, graph.traverse.Met vertex := by
  obtain ⟨coherent, allMet⟩ := visits_complete wellFormed
    (fun root member => mem_vertexIds.mp member) (.start graph)
  rw [traverse_eq]
  exact ⟨coherent, fun vertex inside => allMet vertex (.inl (mem_vertexIds.mpr inside))⟩

/-- An invariant of the turns that survives the entry at a new root is one of a visit. -/
theorem visit_invariant {kept : Search → Prop} (wellFormed : graph.WellFormed)
    (turn : ∀ before after, Coherent graph before → Search.Turn graph before after →
      kept before → kept after)
    {progress : Progress} {root : Nat} (coherent : Coherent graph { progress, frames := [] })
    (inside : root < graph.size)
    (enter : ¬ progress.Met root → kept (Search.enter { progress, frames := [] } root))
    (start : kept { progress, frames := [] }) :
    kept { progress := graph.visit graph.turns progress root, frames := [] } := by
  by_cases met : progress.Met root
  · rw [visit_of_met met]
    exact start
  · have entered := coherent_enter coherent inside met
    have finished := entered.explore_finishes wellFormed (remaining_enter_le coherent inside met)
    have explored := (entered.explore_invariant wellFormed turn (enter met) graph.turns).2
    rw [visit_of_not_met met]
    generalize Search.explore graph graph.turns _ = reached at finished explored ⊢
    obtain ⟨progress, frames⟩ := reached
    obtain rfl : frames = [] := finished
    exact explored

/-- Such an invariant is one of visits of any roots. -/
theorem visits_invariant {kept : Search → Prop} (wellFormed : graph.WellFormed)
    (turn : ∀ before after, Coherent graph before → Search.Turn graph before after →
      kept before → kept after)
    {roots : List Nat} (inside : ∀ root ∈ roots, root < graph.size)
    (enter : ∀ root ∈ roots, ∀ progress, Coherent graph { progress, frames := [] } →
      ¬ progress.Met root → kept { progress, frames := [] } →
        kept (Search.enter { progress, frames := [] } root))
    {progress : Progress} (coherent : Coherent graph { progress, frames := [] })
    (start : kept { progress, frames := [] }) :
    kept { progress := roots.foldl (graph.visit graph.turns) progress, frames := [] } := by
  induction roots generalizing progress with
  | nil => exact start
  | cons root rest inductionHypothesis =>
      have rootInside := inside root List.mem_cons_self
      have visited := visit_invariant wellFormed turn coherent rootInside
        (fun fresh => enter root List.mem_cons_self progress coherent fresh start) start
      exact inductionHypothesis (fun other member => inside other (List.mem_cons_of_mem _ member))
        (fun other member => enter other (List.mem_cons_of_mem _ member))
        (visit_spec wellFormed coherent rootInside).1 visited

/-- If it holds before the first vertex is met, it holds of the traversal. -/
theorem traverse_invariant {kept : Search → Prop} (wellFormed : graph.WellFormed)
    (turn : ∀ before after, Coherent graph before → Search.Turn graph before after →
      kept before → kept after)
    (enter : ∀ root < graph.size, ∀ progress, Coherent graph { progress, frames := [] } →
      ¬ progress.Met root → kept { progress, frames := [] } →
        kept (Search.enter { progress, frames := [] } root))
    (start : kept { progress := .start graph.size, frames := [] }) :
    kept { progress := graph.traverse, frames := [] } := by
  rw [traverse_eq]
  apply visits_invariant wellFormed turn (fun root member => mem_vertexIds.mp member)
  · exact fun root member => enter root (mem_vertexIds.mp member)
  · exact .start graph
  · exact start

end Graph

end GraphsAndCaches
