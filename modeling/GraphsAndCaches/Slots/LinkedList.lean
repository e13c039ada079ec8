import GraphsAndCaches.Slots.Arena

/-!
# Linked lists in slots

A doubly linked list whose nodes live in the slots of an arena. The slot of a
node is its name: it stays the same while the node is in the list, wherever the
node moves, so a caller can keep it and later reach, unlink or move that node
without a search.

The front holds the newest node and the back the oldest one. Every operation
touches at most the node, its two neighbours and the ends. Naming a slot that
holds no node is refused and changes nothing.

`LinkedList.isConsistent` walks the links and compares them with the ends and
with the number of nodes; it is the check that the operations keep true.
-/

namespace GraphsAndCaches

universe u
variable {α : Type u}

/-- A value with its neighbours: `newer` toward the front, `older` toward the back. -/
structure Node (α : Type u) where
  value : α
  newer : Option Slot
  older : Option Slot
deriving Repr

/-- Nodes in slots, and the two ends. A list is empty when it has no ends. -/
structure LinkedList (α : Type u) where
  nodes : Arena (Node α) := {}
  newest : Option Slot := none
  oldest : Option Slot := none
deriving Repr

namespace LinkedList

/-- The list without nodes. -/
def empty : LinkedList α := {}

instance : Inhabited (LinkedList α) := ⟨empty⟩

def size (list : LinkedList α) : Nat := list.nodes.size

def isEmpty (list : LinkedList α) : Bool := list.nodes.isEmpty

def contains (list : LinkedList α) (slot : Slot) : Bool := list.nodes.contains slot

/-- The value of the node in a slot. -/
def get? (list : LinkedList α) (slot : Slot) : Option α :=
  (list.nodes.get? slot).map Node.value

def front? (list : LinkedList α) : Option α := list.newest.bind list.get?

def back? (list : LinkedList α) : Option α := list.oldest.bind list.get?

/-- The values of at most `length` nodes from `current` toward the back. -/
def valuesFrom (nodes : Arena (Node α)) : Nat → Option Slot → List α
  | length + 1, some slot =>
      match nodes.get? slot with
      | some node => node.value :: valuesFrom nodes length node.older
      | none => []
  | _, _ => []

/-- The values from front to back. The number of nodes bounds the walk. -/
def toList (list : LinkedList α) : List α :=
  valuesFrom list.nodes list.size list.newest

/-- Say which node precedes `slot?`: the node itself records it, or, when there
is no such node, the predecessor is the last of the list. -/
def setNewer (list : LinkedList α) (slot? : Option Slot) (newer : Option Slot) :
    LinkedList α :=
  match slot? with
  | some slot => { list with nodes := list.nodes.modify slot ({ · with newer }) }
  | none => { list with oldest := newer }

/-- Say which node follows `slot?`: the node itself records it, or, when there
is no such node, the successor is the first of the list. -/
def setOlder (list : LinkedList α) (slot? : Option Slot) (older : Option Slot) :
    LinkedList α :=
  match slot? with
  | some slot => { list with nodes := list.nodes.modify slot ({ · with older }) }
  | none => { list with newest := older }

/-- Put the node in `slot` before the present front. -/
def linkFront (list : LinkedList α) (slot : Slot) : LinkedList α :=
  let second := list.newest
  let list := list.setNewer second (some slot)
  let list := list.setOlder (some slot) second
  { list.setNewer (some slot) none with newest := some slot }

/-- Join the neighbours of the node in `slot`, and leave the node without any. -/
def unlink (list : LinkedList α) (slot : Slot) : LinkedList α :=
  match list.nodes.get? slot with
  | none => list
  | some { newer, older, .. } =>
      let list := list.setOlder newer older
      let list := list.setNewer older newer
      { list with nodes := list.nodes.modify slot ({ · with newer := none, older := none }) }

/-- Add a value at the front, and name its slot. -/
def pushFront (list : LinkedList α) (value : α) : Slot × LinkedList α :=
  let { nodes, newest, oldest } := list
  let (slot, nodes) := nodes.insert { value, newer := none, older := none }
  (slot, linkFront { nodes, newest, oldest } slot)

/-- Take the node in `slot` out of the list. -/
def remove (list : LinkedList α) (slot : Slot) : Option α × LinkedList α :=
  let { nodes, newest, oldest } := list.unlink slot
  let (node, nodes) := nodes.remove slot
  (node.map Node.value, { nodes, newest, oldest })

/-- Take the oldest node out of the list. -/
def popBack (list : LinkedList α) : Option α × LinkedList α :=
  match list.oldest with
  | some slot => list.remove slot
  | none => (none, list)

/-- Move the node in `slot` to the front, and tell whether there was one. -/
def moveToFront (list : LinkedList α) (slot : Slot) : Bool × LinkedList α :=
  if list.contains slot then
    if list.newest = some slot then (true, list)
    else (true, (list.unlink slot).linkFront slot)
  else (false, list)

/-- Write a value over the one in `slot`, and yield the old one. The node keeps
its place. -/
def replace (list : LinkedList α) (slot : Slot) (value : α) : Option α × LinkedList α :=
  (list.get? slot, { list with nodes := list.nodes.modify slot ({ · with value }) })

/-- Drop all nodes, and forget their slots. -/
def clear (_list : LinkedList α) : LinkedList α := empty

/-- The links from `current` on are those of a list of exactly `length` nodes
that ends at `oldest`, where `before` precedes the first of them. -/
def linksAgree (nodes : Arena (Node α)) (oldest : Option Slot) :
    Nat → Option Slot → Option Slot → Bool
  | length, _, none => length == 0
  | 0, _, some _ => false
  | length + 1, before, some slot =>
      match nodes.get? slot with
      | none => false
      | some node =>
          node.newer == before && (node.older.isSome || oldest == some slot) &&
            linksAgree nodes oldest length (some slot) node.older

/-- Links, ends and number of nodes describe one and the same list. -/
def isConsistent (list : LinkedList α) : Bool :=
  match list.newest, list.oldest with
  | none, none => list.size == 0
  | some newest, some oldest =>
      linksAgree list.nodes (some oldest) list.size none (some newest)
  | _, _ => false

/-- What can be asked of a list. -/
inductive Operation (α : Type u) where
  | pushFront (value : α)
  | popBack
  | remove (slot : Slot)
  | moveToFront (slot : Slot)
  | front
  | back
  | backSlot
  | get (slot : Slot)
  | set (slot : Slot) (value : α)
  | contains (slot : Slot)
  | isEmpty
  | clear
deriving Repr

/-- Carry out one operation. -/
def perform (list : LinkedList α) : Operation α → SlotAnswer α × LinkedList α
  | .pushFront value =>
      let (slot, list) := list.pushFront value
      (.slot (some slot), list)
  | .popBack =>
      let (value, list) := list.popBack
      (.value value, list)
  | .remove slot =>
      let (value, list) := list.remove slot
      (.value value, list)
  | .moveToFront slot =>
      let (moved, list) := list.moveToFront slot
      (.flag moved, list)
  | .front => (.value list.front?, list)
  | .back => (.value list.back?, list)
  | .backSlot => (.slot list.oldest, list)
  | .get slot => (.value (list.get? slot), list)
  | .set slot value =>
      let (old, list) := list.replace slot value
      (.value old, list)
  | .contains slot => (.flag (list.contains slot), list)
  | .isEmpty => (.flag list.isEmpty, list)
  | .clear => (.done, list.clear)

/-- Carry out operations in order, and yield their answers in that order. -/
def run (list : LinkedList α) : List (Operation α) → List (SlotAnswer α) × LinkedList α
  | [] => ([], list)
  | operation :: rest =>
      let (answer, list) := list.perform operation
      let (answers, list) := list.run rest
      (answer :: answers, list)

end LinkedList

end GraphsAndCaches
