/-!
# Errors

The three ways in which the library refuses or reports. A configuration error
rejects construction parameters, an invariant violation describes damage found
by a check, and a graph error names a vertex that is not part of a graph.

Misses, repeated insertions and failed resource creation are ordinary answers
and never appear here.
-/

namespace GraphsAndCaches

/-- The parameters of a construction were rejected, for the reason given. -/
structure ConfigurationError where
  message : String
deriving DecidableEq, Repr

/-- A capacity of zero was rejected; `subject` names what the capacity belongs to. -/
def ConfigurationError.zeroCapacity (subject : String) : ConfigurationError :=
  ⟨subject ++ " capacity must be greater than zero"⟩

instance : ToString ConfigurationError := ⟨ConfigurationError.message⟩

/-- A check found a structure that disagrees with itself, as described. -/
structure InvariantViolation where
  message : String
deriving DecidableEq, Repr

instance : ToString InvariantViolation := ⟨InvariantViolation.message⟩

/-- Vertices are named by their position in order of insertion, from zero. -/
abbrev VertexId := Nat

/-- An edge was refused because an endpoint does not belong to the graph. -/
inductive GraphError where
  | unknownVertex (vertex : VertexId)
deriving DecidableEq, Repr

/-- The text of a graph error names the missing vertex by its position. -/
def GraphError.message : GraphError → String
  | .unknownVertex vertex => s!"vertex {vertex} is not part of the graph"

instance : ToString GraphError := ⟨GraphError.message⟩

end GraphsAndCaches
