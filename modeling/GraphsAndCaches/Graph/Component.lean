/-!
# Strongly connected components

A component of more than one member is a cycle. A component of one member is
independent, even when its vertex has an edge to itself; such a vertex remains
recognisable by the mark `selfLoop`.

Components are reported in the order in which their roots were finished, and the
members of each in the order in which they left the traversal stack, so that the
root of a component is its last member.
-/

namespace GraphsAndCaches

universe u v
variable {α : Type u} {β : Type v}

/-- One strongly connected component. -/
structure Component (α : Type u) where
  members : List α
  /-- The only member has an edge to itself. -/
  selfLoop : Bool
deriving BEq, Repr

namespace Component

def size (component : Component α) : Nat := component.members.length

def isEmpty (component : Component α) : Bool := component.members.isEmpty

/-- The member that the traversal met first. -/
def root? (component : Component α) : Option α := component.members.getLast?

/-- Two or more members reach one another. -/
def isCycle (component : Component α) : Bool := 1 < component.size

def isIndependent (component : Component α) : Bool := !component.isCycle

def contains [BEq α] (component : Component α) (value : α) : Bool :=
  component.members.contains value

/-- Replace every member by its image. Members without an image disappear. -/
def mapMembers (component : Component α) (image : α → Option β) : Component β :=
  { component with members := component.members.filterMap image }

end Component

/-- Components in the order in which they were reported. -/
structure Components (α : Type u) where
  toList : List (Component α) := []
deriving BEq, Repr

namespace Components

def size (components : Components α) : Nat := components.toList.length

def isEmpty (components : Components α) : Bool := components.toList.isEmpty

/-- The components of two or more members, in order. -/
def cycles (components : Components α) : List (Component α) :=
  components.toList.filter (·.isCycle)

/-- The components of one member, in order. -/
def independent (components : Components α) : List (Component α) :=
  components.toList.filter (·.isIndependent)

/-- The components of one member with an edge to itself, in order. -/
def selfLoops (components : Components α) : List (Component α) :=
  components.toList.filter (·.selfLoop)

def hasCycles (components : Components α) : Bool := components.toList.any (·.isCycle)

/-- There are cycles exactly when some are listed. -/
theorem hasCycles_eq_false_iff (components : Components α) :
    components.hasCycles = false ↔ components.cycles = [] := by
  simp [hasCycles, cycles, List.filter_eq_nil_iff]

end Components

end GraphsAndCaches
