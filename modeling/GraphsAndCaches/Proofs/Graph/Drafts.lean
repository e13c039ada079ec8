import GraphsAndCaches.Proofs.Graph.Shape
import Mathlib.Data.List.Forall2

/-!
# A graph forgets all but what was added to it

A session edits a graph and runs the detection on it, again and again, puts copies of the
graph aside with the marks that are on them, and goes back to any of these copies. Beside it
runs a draft, which only notes the values that were added and the edges that were accepted:
it is copied along with the graph, and no run of the detection leaves a trace in it.

Throughout a session the graph has the vertices and edges of its draft. Since a traversal
depends on nothing else, every run of the detection answers, and marks, as it would on a
graph that was just made from the draft.
-/

namespace GraphsAndCaches

universe u v w
variable {α : Type u}

/-- The values that were added to a graph, and the edges between them that were accepted. -/
structure Draft (α : Type u) where
  values : List α := []
  edges : List (VertexId × VertexId) := []

namespace Draft

/-- The targets of the edges from a vertex, in the order in which they were accepted. -/
def targets (draft : Draft α) (vertex : VertexId) : List VertexId :=
  (draft.edges.filter fun edge => edge.1 == vertex).map Prod.snd

def addVertex (draft : Draft α) (value : α) : Draft α :=
  { draft with values := draft.values ++ [value] }

/-- An edge is accepted when both of its ends are there, and leaves no trace otherwise. -/
def addEdge (draft : Draft α) (source target : VertexId) : Draft α :=
  if source < draft.values.length ∧ target < draft.values.length then
    { draft with edges := draft.edges ++ [(source, target)] }
  else draft

theorem getElem?_addVertex (draft : Draft α) (value : α) (vertex : Nat) :
    (draft.addVertex value).values[vertex]? =
      if vertex = draft.values.length then some value else draft.values[vertex]? := by
  rw [addVertex]
  rcases Nat.lt_trichotomy vertex draft.values.length with before | rfl | behind
  · rw [if_neg (Nat.ne_of_lt before), List.getElem?_append_left before]
  · rw [if_pos rfl, List.getElem?_concat_length]
  · rw [if_neg (Nat.ne_of_gt behind), List.getElem?_eq_none (Nat.le_of_lt behind),
      List.getElem?_eq_none (by simpa using Nat.succ_le_of_lt behind)]

theorem targets_concat (values : List α) (edges : List (VertexId × VertexId))
    (source target vertex : VertexId) :
    Draft.targets { values, edges := edges ++ [(source, target)] } vertex =
      Draft.targets { values, edges } vertex ++ if vertex = source then [target] else [] := by
  simp only [targets, List.filter_append, List.map_append]
  by_cases same : vertex = source
  · simp [same]
  · simp [same, Ne.symm same]

end Draft

namespace Graph

/-! ## Graphs and what was added to them -/

/-- The graph has the vertices of the draft, with the edges of the draft. -/
structure Drawn (graph : Graph α) (draft : Draft α) : Prop where
  size : graph.size = draft.values.length
  value : ∀ vertex, graph.value? vertex = draft.values[vertex]?
  targets : ∀ vertex, graph.targets vertex = draft.targets vertex

theorem value?_addVertex (graph : Graph α) (value : α) (vertex : VertexId) :
    (graph.addVertex value).2.value? vertex =
      if vertex = graph.size then some value else graph.value? vertex := by
  simp only [value?, addVertex, Array.getElem?_push]
  by_cases last : vertex = graph.vertices.size
  · rw [if_pos last]
    exact (if_pos last).symm
  · rw [if_neg last]
    exact (if_neg last).symm

/-- An edge changes no value. -/
theorem value?_of_addEdge {graph after : Graph α} {source target : VertexId}
    (accepted : graph.addEdge source target = (.ok (), after)) (vertex : VertexId) :
    after.value? vertex = graph.value? vertex := by
  obtain ⟨_, _, rfl⟩ := eq_of_addEdge accepted
  simp only [value?, Array.getElem?_modify]
  by_cases same : source = vertex
  · rw [if_pos same]
    cases graph.vertices[vertex]? <;> rfl
  · rw [if_neg same]

namespace Drawn

variable {graph : Graph α} {draft : Draft α}

theorem empty : Drawn (Graph.empty : Graph α) {} where
  size := rfl
  value vertex := by simp [value?, Graph.empty]
  targets vertex := by simp [Graph.targets, edges?, Graph.empty, Draft.targets]

theorem addVertex (drawn : graph.Drawn draft) (value : α) :
    (graph.addVertex value).2.Drawn (draft.addVertex value) where
  size := by simp [Draft.addVertex, drawn.size]
  value vertex := by
    rw [value?_addVertex, drawn.value, drawn.size]
    exact (draft.getElem?_addVertex value vertex).symm
  targets vertex := (targets_addVertex graph value vertex).trans (drawn.targets vertex)

/-- An edge that the graph accepts is one that the draft notes. -/
theorem addEdge {after : Graph α} {source target : VertexId} (drawn : graph.Drawn draft)
    (accepted : graph.addEdge source target = (.ok (), after)) :
    after.Drawn (draft.addEdge source target) := by
  have inside := (addEdge_isOk_iff graph source target).mp ⟨after, accepted⟩
  rw [drawn.size] at inside
  rw [Draft.addEdge, if_pos inside]
  refine ⟨(size_of_addEdge accepted).trans drawn.size, ?_, ?_⟩
  · exact fun vertex => (value?_of_addEdge accepted vertex).trans (drawn.value vertex)
  · intro vertex
    rw [targets_of_addEdge accepted, drawn.targets, Draft.targets_concat]

/-- An edge that the graph rejects is one that the draft does not note. -/
theorem addEdge_eq_self {after : Graph α} {source target : VertexId} {refused : GraphError}
    (drawn : graph.Drawn draft)
    (rejected : graph.addEdge source target = (.error refused, after)) :
    draft.addEdge source target = draft := by
  rw [Draft.addEdge, ← drawn.size]
  refine if_neg fun inside => ?_
  obtain ⟨after, accepted⟩ := (addEdge_isOk_iff graph source target).mpr inside
  exact nomatch rejected.symm.trans accepted

/-- The detection changes neither vertices nor edges. -/
theorem detect (drawn : graph.Drawn draft) : graph.detect.graph.Drawn draft :=
  ⟨drawn.size, drawn.value, drawn.targets⟩

/-- Edges with the targets of the draft have their ends in the graph. -/
theorem inside (drawn : graph.Drawn draft) (wellFormed : graph.WellFormed)
    {edges : List (VertexId × VertexId)}
    (sameEdges : ∀ vertex, Draft.targets { values := draft.values, edges } vertex =
      draft.targets vertex) :
    ∀ edge ∈ edges, edge.1 < draft.values.length ∧ edge.2 < draft.values.length := by
  rintro ⟨source, target⟩ member
  have listed : target ∈ Draft.targets { values := draft.values, edges } source :=
    List.mem_map.mpr ⟨(source, target), List.mem_filter.mpr ⟨member, beq_self_eq_true source⟩, rfl⟩
  rw [sameEdges, ← drawn.targets] at listed
  have edge : graph.Edge source target := listed
  rw [← drawn.size]
  exact ⟨edge.source_lt_size, wellFormed source target edge⟩

/-- Graphs of drafts with the same values and the same edges from each vertex have the same
shape. -/
theorem sameShape {other : Graph α} {otherDraft : Draft α} (drawn : graph.Drawn draft)
    (otherDrawn : other.Drawn otherDraft) (sameValues : otherDraft.values = draft.values)
    (sameEdges : ∀ vertex, otherDraft.targets vertex = draft.targets vertex) :
    graph.SameShape other where
  size := by rw [drawn.size, otherDrawn.size, sameValues]
  targets vertex := by rw [drawn.targets, otherDrawn.targets, sameEdges]

/-! ## Graphs that were just made -/

theorem addVertices (drawn : graph.Drawn draft) (values : List α) :
    (graph.addVertices values).Drawn
      { values := draft.values ++ values, edges := draft.edges } := by
  induction values generalizing graph draft with
  | nil => rwa [List.append_nil]
  | cons value rest inductionHypothesis =>
      have further := inductionHypothesis (drawn.addVertex value)
      rwa [Draft.addVertex, List.append_assoc] at further

/-- Edges between vertices of the graph are all accepted. -/
theorem addEdges (drawn : graph.Drawn draft) {edges : List (VertexId × VertexId)}
    (inside : ∀ edge ∈ edges, edge.1 < draft.values.length ∧ edge.2 < draft.values.length) :
    ∃ after, graph.addEdges edges = (.ok (), after) ∧
      after.Drawn { values := draft.values, edges := draft.edges ++ edges } := by
  induction edges generalizing graph draft with
  | nil => exact ⟨graph, rfl, by rwa [List.append_nil]⟩
  | cons edge rest inductionHypothesis =>
      obtain ⟨source, target⟩ := edge
      have ends := inside (source, target) List.mem_cons_self
      have known := ends
      rw [← drawn.size] at known
      obtain ⟨next, accepted⟩ := (addEdge_isOk_iff graph source target).mpr known
      have nextDrawn := drawn.addEdge accepted
      rw [Draft.addEdge, if_pos ends] at nextDrawn
      obtain ⟨after, made, afterDrawn⟩ := inductionHypothesis nextDrawn
        fun other member => inside other (List.mem_cons_of_mem _ member)
      refine ⟨after, ?_, ?_⟩
      · rw [addEdges_cons_of_ok accepted, made]
      · rwa [List.append_assoc] at afterDrawn

/-- A graph can be made from values and edges between them. -/
theorem ofEdges {values : List α} {edges : List (VertexId × VertexId)}
    (inside : ∀ edge ∈ edges, edge.1 < values.length ∧ edge.2 < values.length) :
    ∃ made, Graph.ofEdges values edges = .ok made ∧ made.Drawn { values, edges } := by
  obtain ⟨made, accepted, drawn⟩ := (Drawn.empty.addVertices values).addEdges inside
  exact ⟨made, by rw [Graph.ofEdges, accepted], drawn⟩

end Drawn

end Graph

/-! ## Sessions -/

/-- Something that is edited, and the copies of it that were put aside. -/
structure Session (γ : Type v) where
  current : γ
  copies : List γ := []

namespace Session

/-- The ways to work on a graph. -/
inductive Edit (α : Type u) where
  | addVertex (value : α)
  | addEdge (source target : VertexId)
  | detect

/-- What can be done in a session: an edit, putting a copy of the present state aside, or
going back to one of the copies, which stays there. -/
inductive Act (α : Type u) where
  | edit (edit : Edit α)
  | save
  | restore (position : Nat)

/-- What an edit makes of a graph, whatever it answers. -/
def Edit.onGraph (edit : Edit α) (graph : Graph α) : Graph α :=
  match edit with
  | .addVertex value => (graph.addVertex value).2
  | .addEdge source target => (graph.addEdge source target).2
  | .detect => graph.detect.graph

/-- A run of the detection is not noted. -/
def Edit.onDraft (edit : Edit α) (draft : Draft α) : Draft α :=
  match edit with
  | .addVertex value => draft.addVertex value
  | .addEdge source target => draft.addEdge source target
  | .detect => draft

variable {γ : Type v} {δ : Type w}

/-- Do one thing in a session. Where there is no copy to go back to, nothing happens. -/
def perform (apply : Edit α → γ → γ) (session : Session γ) : Act α → Session γ
  | .edit edit => { session with current := apply edit session.current }
  | .save => { session with copies := session.copies ++ [session.current] }
  | .restore position =>
      match session.copies[position]? with
      | some copy => { session with current := copy }
      | none => session

def run (apply : Edit α → γ → γ) (session : Session γ) (acts : List (Act α)) : Session γ :=
  acts.foldl (perform apply) session

/-- The present states are related, and so are the copies, one by one. -/
structure Paired (related : γ → δ → Prop) (left : Session γ) (right : Session δ) : Prop where
  current : related left.current right.current
  copies : List.Forall₂ related left.copies right.copies

variable {related : γ → δ → Prop} {left : Session γ} {right : Session δ}
  {applyLeft : Edit α → γ → γ} {applyRight : Edit α → δ → δ}

/-- What every edit keeps related stays related whatever is done. -/
theorem Paired.perform (paired : Paired related left right)
    (keeps : ∀ edit first second, related first second →
      related (applyLeft edit first) (applyRight edit second)) (act : Act α) :
    Paired related (left.perform applyLeft act) (right.perform applyRight act) := by
  cases act with
  | edit edit => exact ⟨keeps edit _ _ paired.current, paired.copies⟩
  | save =>
      exact ⟨paired.current, List.rel_append paired.copies (.cons paired.current .nil)⟩
  | restore position =>
      have asMany := paired.copies.length_eq
      simp only [Session.perform]
      by_cases inLeft : position < left.copies.length
      · have inRight : position < right.copies.length := asMany ▸ inLeft
        rw [List.getElem?_eq_getElem inLeft, List.getElem?_eq_getElem inRight]
        exact ⟨paired.copies.get inLeft inRight, paired.copies⟩
      · have notInRight : ¬ position < right.copies.length := asMany ▸ inLeft
        rw [List.getElem?_eq_none (Nat.le_of_not_lt inLeft),
          List.getElem?_eq_none (Nat.le_of_not_lt notInRight)]
        exact paired

theorem Paired.run (paired : Paired related left right)
    (keeps : ∀ edit first second, related first second →
      related (applyLeft edit first) (applyRight edit second)) (acts : List (Act α)) :
    Paired related (left.run applyLeft acts) (right.run applyRight acts) := by
  induction acts generalizing left right with
  | nil => exact paired
  | cons act rest inductionHypothesis => exact inductionHypothesis (paired.perform keeps act)

/-- A built graph and its draft are edited alike. -/
theorem Edit.keeps_drawn (edit : Edit α) (graph : Graph α) (draft : Draft α)
    (known : graph.Built ∧ graph.Drawn draft) :
    (edit.onGraph graph).Built ∧ (edit.onGraph graph).Drawn (edit.onDraft draft) := by
  obtain ⟨built, drawn⟩ := known
  cases edit with
  | addVertex value => exact ⟨.addVertex value built, drawn.addVertex value⟩
  | addEdge source target =>
      simp only [onGraph, onDraft]
      rcases answered : graph.addEdge source target with ⟨⟨refused⟩ | ⟨⟩, after⟩
      · obtain rfl := Graph.eq_of_addEdge_error answered
        rw [drawn.addEdge_eq_self answered]
        exact ⟨built, drawn⟩
      · exact ⟨.addEdge built answered, drawn.addEdge answered⟩
  | detect => exact ⟨.detect built, drawn.detect⟩

/-- The graph that a session has led to. -/
def graphAfter (acts : List (Act α)) : Graph α :=
  (run Edit.onGraph { current := Graph.empty } acts).current

/-- The draft that a session has led to. -/
def draftAfter (acts : List (Act α)) : Draft α :=
  (run Edit.onDraft { current := {} } acts).current

theorem graphAfter_drawn (acts : List (Act α)) :
    (graphAfter acts).Built ∧ (graphAfter acts).Drawn (draftAfter acts) := by
  have start : Paired (fun graph draft => graph.Built ∧ graph.Drawn draft)
      { current := (Graph.empty : Graph α) } { current := ({} : Draft α) } :=
    ⟨⟨.empty, .empty⟩, .nil⟩
  exact (start.run Edit.keeps_drawn acts).current

/-- The detection forgets the history of a graph. Whatever was done in a session before a
run, a graph that is made anew from the same values, and from edges that are the accepted
ones of each vertex in the same order, has the same vertices and edges, the run on it reports
the same components, and each vertex gets the same index and the same lowlink. And a run
leaves the number of vertices, their values and their edges alone. -/
theorem detect_forgets_history (acts : List (Act α)) (values : List α)
    (edges : List (VertexId × VertexId)) (sameValues : values = (draftAfter acts).values)
    (sameEdges : ∀ vertex, (edges.filter fun edge => edge.1 == vertex).map Prod.snd =
      (draftAfter acts).targets vertex) :
    (∃ made, Graph.ofEdges values edges = .ok made ∧
      (graphAfter acts).SameShape made ∧
      (∀ vertex, (graphAfter acts).value? vertex = made.value? vertex) ∧
      (graphAfter acts).detect.components = made.detect.components ∧
      ∀ vertex,
        (graphAfter acts).detect.graph.index? vertex = made.detect.graph.index? vertex ∧
        (graphAfter acts).detect.graph.lowlink? vertex = made.detect.graph.lowlink? vertex) ∧
      (graphAfter acts).detect.graph.size = (graphAfter acts).size ∧
      ∀ vertex,
        (graphAfter acts).detect.graph.value? vertex = (graphAfter acts).value? vertex ∧
        (graphAfter acts).detect.graph.edges? vertex = (graphAfter acts).edges? vertex := by
  subst sameValues
  obtain ⟨built, drawn⟩ := graphAfter_drawn acts
  refine ⟨?_, rfl, fun vertex => ⟨rfl, rfl⟩⟩
  obtain ⟨made, accepted, madeDrawn⟩ :=
    Graph.Drawn.ofEdges (drawn.inside built.wellFormed sameEdges)
  have same : (graphAfter acts).SameShape made := drawn.sameShape madeDrawn rfl sameEdges
  have values : ∀ vertex, (graphAfter acts).value? vertex = made.value? vertex := by
    intro vertex
    rw [drawn.value, madeDrawn.value]
  refine ⟨made, accepted, same, values, same.components_detect_eq values, fun vertex => ?_⟩
  simp only [Graph.index?, Graph.lowlink?, same.mark?_detect_eq, and_self]

/-- A session with a rejected edge and two runs. The copy that it goes back to has marks on
it, which say nothing about the edge and the vertex that are added then. -/
def rework : List (Act Char) :=
  [.edit (.addVertex 'a'), .edit (.addVertex 'b'), .edit (.addEdge 0 1), .edit .detect, .save,
    .edit (.addEdge 1 9), .edit (.addVertex 'c'), .edit (.addEdge 2 2), .edit .detect,
    .restore 0, .edit (.addEdge 1 0), .edit (.addVertex 'd')]

/-- After the session the graph is a ring and a vertex apart. The edges of the ring may be
added in any order, since they leave different vertices. -/
theorem rework_forgotten :
    (graphAfter rework).marks.size = 2 ∧
      ∃ made, Graph.ofEdges ['a', 'b', 'd'] [(1, 0), (0, 1)] = .ok made ∧
        (graphAfter rework).detect.components = made.detect.components ∧
        (graphAfter rework).detect.graph.lowlink? 1 = made.detect.graph.lowlink? 1 := by
  have sameEdges : ∀ vertex,
      ([(1, 0), (0, 1)].filter fun edge => edge.1 == vertex).map Prod.snd =
        (draftAfter rework).targets vertex := by
    intro vertex
    have drafted : (draftAfter rework).edges = [(0, 1), (1, 0)] := rfl
    rw [Draft.targets, drafted]
    rcases vertex with _ | _ | further
    · rfl
    · rfl
    · simp
  obtain ⟨⟨made, accepted, _, _, components, marks⟩, _⟩ :=
    detect_forgets_history rework ['a', 'b', 'd'] [(1, 0), (0, 1)] rfl sameEdges
  exact ⟨by decide +kernel, made, accepted, components, (marks 1).2⟩

end Session

end GraphsAndCaches
