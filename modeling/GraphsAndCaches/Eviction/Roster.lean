import GraphsAndCaches.Errors
import GraphsAndCaches.Slots.LinkedList
import Std.Data.HashMap

/-!
# Rosters

A roster holds entries in an order and finds each of them by its key without a
search. The order is a linked list of entries; the index maps each key to the
slot of its node. Both describe the same entries, which `Roster.check` verifies.

A roster bounds nothing and counts nothing. It knows the newest entry at the
front and the oldest one at the back, and moves an entry only when it is told to.
-/

namespace GraphsAndCaches

variable {κ ν : Type} [DecidableEq κ] [Hashable κ]

/-- Entries in order, and the slot of each key. -/
structure Roster (κ ν : Type) [DecidableEq κ] [Hashable κ] where
  list : LinkedList (κ × ν) := {}
  index : Std.HashMap κ Slot := {}

namespace Roster

/-- The roster without entries. -/
def empty : Roster κ ν := {}

instance : Inhabited (Roster κ ν) := ⟨empty⟩

def size (roster : Roster κ ν) : Nat := roster.index.size

def contains (roster : Roster κ ν) (key : κ) : Bool := roster.index.contains key

/-- The entry of a key, as the list holds it. -/
def entry? (roster : Roster κ ν) (key : κ) : Option (κ × ν) :=
  roster.index[key]?.bind roster.list.get?

/-- The value of a key. -/
def get? (roster : Roster κ ν) (key : κ) : Option ν := (roster.entry? key).map Prod.snd

/-- The oldest entry, which stays in its place. -/
def back? (roster : Roster κ ν) : Option (κ × ν) := roster.list.back?

/-- The entries, the newest one first. -/
def toList (roster : Roster κ ν) : List (κ × ν) := roster.list.toList

/-- How many entries are newer than that of `key`. -/
def rank? (roster : Roster κ ν) (key : κ) : Option Nat :=
  if roster.contains key then roster.toList.findIdx? (·.1 == key) else none

/-- Make the entry of `key` the newest one, and tell whether there is one. -/
def promote (roster : Roster κ ν) (key : κ) : Bool × Roster κ ν :=
  match roster.index[key]? with
  | none => (false, roster)
  | some slot =>
      let { list, index } := roster
      let (moved, list) := list.moveToFront slot
      (moved, { list, index })

/-- Write a value over that of `key`, and yield the old one. The entry keeps
its key and its place. -/
def replace (roster : Roster κ ν) (key : κ) (value : ν) : Option ν × Roster κ ν :=
  match roster.index[key]? with
  | none => (none, roster)
  | some slot =>
      match roster.list.get? slot with
      | none => (none, roster)
      | some (stored, old) =>
          let { list, index } := roster
          (some old, { list := (list.replace slot (stored, value)).2, index })

/-- Add an entry in front of all others. The key is not among them. -/
def pushFront (roster : Roster κ ν) (key : κ) (value : ν) : Roster κ ν :=
  let { list, index } := roster
  let (slot, list) := list.pushFront (key, value)
  { list, index := index.insert key slot }

/-- Take the entry of `key` out, and yield its value. -/
def remove (roster : Roster κ ν) (key : κ) : Option ν × Roster κ ν :=
  match roster.index[key]? with
  | none => (none, roster)
  | some slot =>
      let { list, index } := roster
      let (entry, list) := list.remove slot
      (entry.map Prod.snd, { list, index := index.erase key })

/-- Take the oldest entry out. -/
def popBack (roster : Roster κ ν) : Option (κ × ν) × Roster κ ν :=
  let { list, index } := roster
  match list.popBack with
  | (none, list) => (none, { list, index })
  | (some (key, value), list) => (some (key, value), { list, index := index.erase key })

/-- Drop all entries. -/
def clear (_roster : Roster κ ν) : Roster κ ν := empty

/-- The index is as long as the list, neither is longer than `capacity`, and
every key leads to a node that holds this key. The first of these that fails is
the defect. -/
def check (roster : Roster κ ν) (capacity : Nat) : Except InvariantViolation Unit :=
  if roster.list.size ≠ roster.index.size then
    throw ⟨s!"recency list holds {roster.list.size} entries but index holds {roster.index.size}"⟩
  else if capacity < roster.index.size then
    throw ⟨s!"{roster.index.size} entries exceed capacity {capacity}"⟩
  else if roster.index.toList.all fun (key, slot) =>
      (roster.list.get? slot).any fun (stored, _) => stored == key then
    pure ()
  else
    throw ⟨"index points at a foreign list node"⟩

end Roster

end GraphsAndCaches
