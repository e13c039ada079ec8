import GraphsAndCaches.Graph.Workspace
import GraphsAndCaches.Proofs.Graph.Drafts

/-!
# Graphs from lists of edges

A graph is made from a list of values and a list of edges by adding one after another. It can
be made exactly when every end of every edge is the position of a value. Then its vertices are
the values in order, and the edges of a vertex are those of the list that leave it, in the
order of the list.

Otherwise the first edge that does not fit decides the error, since none is tried after it.
The error names the target of that edge when the target is missing, and its source when only
the source is. An edge that is refused changes nothing, neither edges nor marks.
-/

namespace GraphsAndCaches.Graph

universe u
variable {α : Type u} {graph : Graph α}

/-- Both ends of an edge are among so many vertices. -/
def Fits (size : Nat) (edge : VertexId × VertexId) : Prop := edge.1 < size ∧ edge.2 < size

instance (size : Nat) (edge : VertexId × VertexId) : Decidable (Fits size edge) :=
  inferInstanceAs (Decidable (edge.1 < size ∧ edge.2 < size))

/-- The end that is named when an edge does not fit. -/
def missingEnd (size : Nat) (edge : VertexId × VertexId) : VertexId :=
  if size ≤ edge.2 then edge.2 else edge.1

/-! ## One edge -/

/-- An edge that does not fit is refused, and the graph is left as it was. -/
theorem addEdge_of_not_fits {source target : VertexId}
    (outside : ¬ Fits graph.size (source, target)) :
    graph.addEdge source target =
      (.error (.unknownVertex (missingEnd graph.size (source, target))), graph) := by
  rw [missingEnd]
  exact addEdge_of_outside outside

/-- An edge is refused for nothing else. -/
theorem fst_addEdge_eq_error_iff {source target : VertexId} {error : GraphError} :
    (graph.addEdge source target).1 = .error error ↔
      ¬ Fits graph.size (source, target) ∧
        error = .unknownVertex (missingEnd graph.size (source, target)) := by
  by_cases fits : Fits graph.size (source, target)
  · obtain ⟨after, accepted⟩ := (addEdge_isOk_iff graph source target).mpr fits
    rw [accepted]
    simp [fits]
  · rw [addEdge_of_not_fits fits]
    simp [fits, eq_comm]

/-- An edge does not fit and one of its ends is named when the target is missing, or when the
source is and the target is there. -/
theorem names_iff {size : Nat} {source target : VertexId} {error : GraphError} :
    ¬ Fits size (source, target) ∧ error = .unknownVertex (missingEnd size (source, target)) ↔
      size ≤ target ∧ error = .unknownVertex target ∨
        target < size ∧ size ≤ source ∧ error = .unknownVertex source := by
  rw [missingEnd, Fits]
  by_cases targetMissing : size ≤ target
  · simp [targetMissing, Nat.not_lt.mpr targetMissing]
  · simp [targetMissing, Nat.lt_of_not_le targetMissing]

/-- A workspace refuses the edges that its graph refuses. -/
theorem perform_addEdge_eq_refused_iff [BEq α] {workspace : Workspace α}
    {source target : VertexId} {error : GraphError} :
    (workspace.perform (.addEdge source target)).1 = .refused error ↔
      (workspace.graph.addEdge source target).1 = .error error := by
  rw [Workspace.perform]
  rcases workspace.graph.addEdge source target with ⟨⟨refused⟩ | ⟨⟩, after⟩ <;> simp

/-- What it has is left in place then. -/
theorem perform_addEdge_of_error [BEq α] {workspace : Workspace α} {source target : VertexId}
    {error : GraphError} (refused : (workspace.graph.addEdge source target).1 = .error error) :
    (workspace.perform (.addEdge source target)).2 = workspace := by
  rw [Workspace.perform]
  rcases answered : workspace.graph.addEdge source target with ⟨⟨other⟩ | ⟨⟩, after⟩
  · rw [eq_of_addEdge_error answered]
  · rw [answered] at refused
    exact nomatch refused

/-! ## A list of edges -/

/-- The edges of a vertex are those of the draft. What is not a vertex has none. -/
theorem Drawn.edges?_eq {draft : Draft α} (drawn : graph.Drawn draft) (vertex : VertexId) :
    graph.edges? vertex =
      draft.values[vertex]?.map fun _ => (draft.targets vertex).toArray := by
  have valued := drawn.value vertex
  have listed := drawn.targets vertex
  rw [value?] at valued
  rw [Graph.targets, edges?] at listed
  rw [edges?, ← valued, ← listed]
  cases graph.vertices[vertex]? with
  | none => rfl
  | some stored => rfl

/-- Edges are tried one after another, and none after the first one that does not fit. Those
before it stay. -/
theorem addEdges_of_stray {draft : Draft α} (drawn : graph.Drawn draft)
    {before after : List (VertexId × VertexId)} {stray : VertexId × VertexId}
    (inside : ∀ edge ∈ before, Fits draft.values.length edge)
    (outside : ¬ Fits draft.values.length stray) :
    ∃ reached : Graph α, graph.addEdges (before ++ stray :: after) =
        (.error (.unknownVertex (missingEnd draft.values.length stray)), reached) ∧
      reached.Drawn { values := draft.values, edges := draft.edges ++ before } := by
  obtain ⟨reached, accepted, reachedDrawn⟩ := drawn.addEdges inside
  have size : reached.size = draft.values.length := reachedDrawn.size
  refine ⟨reached, ?_, reachedDrawn⟩
  rw [← size] at outside ⊢
  rw [addEdges_append_of_ok accepted, addEdges_cons_of_error (addEdge_of_not_fits outside)]

theorem ofEdges_of_stray (values : List α) {before after : List (VertexId × VertexId)}
    {stray : VertexId × VertexId} (inside : ∀ edge ∈ before, Fits values.length edge)
    (outside : ¬ Fits values.length stray) :
    ofEdges values (before ++ stray :: after) =
      .error (.unknownVertex (missingEnd values.length stray)) := by
  obtain ⟨reached, refused, -⟩ := addEdges_of_stray (Drawn.empty.addVertices values) inside outside
  rw [ofEdges, refused]
  rfl

/-- Either all edges fit and the graph of the values and edges is made, or there is a first one
that does not fit and decides the error. -/
theorem ofEdges_cases (values : List α) (edges : List (VertexId × VertexId)) :
    ((∀ edge ∈ edges, Fits values.length edge) ∧
        ∃ made, ofEdges values edges = .ok made ∧ made.Drawn { values, edges }) ∨
      ∃ before stray after, edges = before ++ stray :: after ∧
        (∀ edge ∈ before, Fits values.length edge) ∧ ¬ Fits values.length stray ∧
        ofEdges values edges = .error (.unknownVertex (missingEnd values.length stray)) := by
  cases found : edges.find? fun edge => !decide (Fits values.length edge) with
  | none =>
      left
      have inside : ∀ edge ∈ edges, Fits values.length edge := by
        intro edge member
        simpa using List.find?_eq_none.mp found edge member
      exact ⟨inside, Drawn.ofEdges inside⟩
  | some stray =>
      right
      obtain ⟨misfit, before, after, rfl, fitting⟩ := List.find?_eq_some_iff_append.mp found
      have outside : ¬ Fits values.length stray := by simpa using misfit
      have inside : ∀ edge ∈ before, Fits values.length edge := by
        intro edge member
        simpa using fitting edge member
      exact ⟨before, stray, after, rfl, inside, outside, ofEdges_of_stray values inside outside⟩

/-- A graph is made from values and edges exactly when every edge fits. Its vertices are then
the values in order, each with the targets of its edges in the order of the list. Otherwise the
error names the missing end of the first edge that does not fit. Likewise, an edge that is added
later is refused exactly when it does not fit, and then the graph, with all its marks, is left
as it was, and so is what else a workspace has. -/
theorem ofEdges_draws_or_names_stray (values : List α) (edges : List (VertexId × VertexId)) :
    ((∃ graph, ofEdges values edges = .ok graph) ↔
        ∀ edge ∈ edges, edge.1 < values.length ∧ edge.2 < values.length) ∧
      (∀ graph, ofEdges values edges = .ok graph →
        graph.size = values.length ∧
          ∀ vertex, graph.value? vertex = values[vertex]? ∧
            graph.edges? vertex = values[vertex]?.map fun _ =>
              ((edges.filter fun edge => edge.1 == vertex).map Prod.snd).toArray) ∧
      (∀ error, ofEdges values edges = .error error ↔
        ∃ before source target after, edges = before ++ (source, target) :: after ∧
          (∀ edge ∈ before, edge.1 < values.length ∧ edge.2 < values.length) ∧
          (values.length ≤ target ∧ error = .unknownVertex target ∨
            target < values.length ∧ values.length ≤ source ∧ error = .unknownVertex source)) ∧
      (∀ (graph : Graph α) (source target : VertexId),
        (∀ error, (graph.addEdge source target).1 = .error error ↔
          (graph.size ≤ target ∧ error = .unknownVertex target ∨
            target < graph.size ∧ graph.size ≤ source ∧ error = .unknownVertex source)) ∧
          ∀ error, (graph.addEdge source target).1 = .error error →
            (graph.addEdge source target).2 = graph) ∧
      ∀ [BEq α] (workspace : Workspace α) (source target : VertexId),
        (∀ error, (workspace.perform (.addEdge source target)).1 = .refused error ↔
          (workspace.graph.size ≤ target ∧ error = .unknownVertex target ∨
            target < workspace.graph.size ∧ workspace.graph.size ≤ source ∧
              error = .unknownVertex source)) ∧
          ∀ error, (workspace.perform (.addEdge source target)).1 = .refused error →
            (workspace.perform (.addEdge source target)).2 = workspace := by
  refine ⟨?accepted, ?drawn, ?refused, ?unchanged, ?inPlace⟩
  case accepted =>
    rcases ofEdges_cases values edges with
      ⟨inside, made, accepted, -⟩ | ⟨before, stray, after, rfl, -, outside, refused⟩
    · exact ⟨fun _ => inside, fun _ => ⟨made, accepted⟩⟩
    · constructor
      · rintro ⟨graph, accepted⟩
        exact nomatch refused.symm.trans accepted
      · intro inside
        exact absurd (inside stray (by simp)) outside
  case drawn =>
    intro graph accepted
    rcases ofEdges_cases values edges with
      ⟨-, made, madeAccepted, drawn⟩ | ⟨_, _, _, _, -, -, refused⟩
    · obtain rfl : made = graph := Except.ok.inj (madeAccepted.symm.trans accepted)
      exact ⟨drawn.size, fun vertex => ⟨drawn.value vertex, drawn.edges?_eq vertex⟩⟩
    · exact nomatch refused.symm.trans accepted
  case refused =>
    intro error
    constructor
    · intro failed
      rcases ofEdges_cases values edges with
        ⟨-, made, accepted, -⟩ | ⟨before, ⟨source, target⟩, after, rfl, inside, outside, refused⟩
      · exact nomatch accepted.symm.trans failed
      · have named := Except.error.inj (failed.symm.trans refused)
        exact ⟨before, source, target, after, rfl, inside, names_iff.mp ⟨outside, named⟩⟩
    · rintro ⟨before, source, target, after, rfl, inside, named⟩
      obtain ⟨outside, rfl⟩ := names_iff.mpr named
      exact ofEdges_of_stray values inside outside
  case unchanged =>
    intro graph source target
    constructor
    · intro error
      exact fst_addEdge_eq_error_iff.trans names_iff
    · intro error refused
      exact eq_of_addEdge_error (Prod.ext refused rfl)
  case inPlace =>
    intro _ workspace source target
    constructor
    · intro error
      rw [perform_addEdge_eq_refused_iff, fst_addEdge_eq_error_iff]
      exact names_iff
    · intro error refused
      exact perform_addEdge_of_error (perform_addEdge_eq_refused_iff.mp refused)

-- The second edge is refused for its target, although its source is missing as well.
example : ofEdges ['a', 'b'] [(0, 1), (5, 7), (9, 0)] = .error (.unknownVertex 7) := rfl

end GraphsAndCaches.Graph
