import GraphsAndCaches.Graph.Detection

/-!
# Workspaces

A workspace is a graph in the course of being edited and analysed again and
again. It remembers the components that were detected last, one saved copy of the
graph with the marks that were on it, and the diagnostics of all runs.
-/

namespace GraphsAndCaches

universe u
variable {α : Type u}

/-- A graph, and what is remembered of its past. -/
structure Workspace (α : Type u) where
  graph : Graph α := {}
  last : Option (Components α) := none
  saved : Option (Graph α) := none
  journal : Array Diagnostic := #[]

namespace Workspace

/-- What can be done to a workspace. -/
inductive Edit (α : Type u) where
  | addVertex (value : α)
  | addEdge (source target : VertexId)
  | detect
  | takeLast
  | save
  | restore
deriving Repr

/-- What an edit answers. -/
inductive Answer (α : Type u) where
  | done
  | flag (truth : Bool)
  | vertex (vertex : VertexId)
  | refused (error : GraphError)
  | detected (components : Components α) (sameAsLast : Option Bool)
  | taken (components : Option (Components α))
deriving Repr

/-- Carry out one edit. -/
def perform [BEq α] (workspace : Workspace α) : Edit α → Answer α × Workspace α
  | .addVertex value =>
      let { graph, last, saved, journal } := workspace
      let (vertex, graph) := graph.addVertex value
      (.vertex vertex, { graph, last, saved, journal })
  | .addEdge source target =>
      let { graph, last, saved, journal } := workspace
      match graph.addEdge source target with
      | (.ok (), graph) => (.done, { graph, last, saved, journal })
      | (.error error, graph) => (.refused error, { graph, last, saved, journal })
  | .detect =>
      let { components, graph, journal } := workspace.graph.detect
      (.detected components (workspace.last.map (components == ·)),
        { workspace with
          graph
          last := some components
          journal := workspace.journal ++ journal })
  | .takeLast => (.taken workspace.last, { workspace with last := none })
  | .save => (.done, { workspace with saved := some workspace.graph })
  | .restore =>
      match workspace.saved with
      | some graph => (.flag true, { workspace with graph, saved := none })
      | none => (.flag false, workspace)

/-- Carry out edits in order, and yield their answers in that order. -/
def run [BEq α] (workspace : Workspace α) : List (Edit α) → List (Answer α) × Workspace α
  | [] => ([], workspace)
  | edit :: rest =>
      let (answer, workspace) := workspace.perform edit
      let (answers, workspace) := workspace.run rest
      (answer :: answers, workspace)

end Workspace

end GraphsAndCaches
