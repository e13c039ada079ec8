/-!
# Slot arenas

An arena stores values in numbered slots. A slot keeps its number while its
value lives there, and a freed slot is used again before the arena grows: the
most recently freed one first. Only the number of slots that were ever in use
together is therefore held.

A slot number is only a number. A number that outlived its value is refused
while the slot is free, and names the new value once the slot is used again.

`Arena.Operation` lists everything that can be asked of an arena, and
`Arena.run` answers a list of such operations one after another.
-/

namespace GraphsAndCaches

universe u
variable {α : Type u}

/-- The number of a slot, from zero. -/
abbrev Slot := Nat

/-- The answers that storage addressed by slots can give. -/
inductive SlotAnswer (α : Type u) where
  | done
  | flag (truth : Bool)
  | slot (slot : Option Slot)
  | value (value : Option α)
deriving DecidableEq, Repr

/-- Numbered storage. `free` lists the empty slots, the last freed one first;
`live` counts the others. -/
structure Arena (α : Type u) where
  slots : Array (Option α) := #[]
  free : List Slot := []
  live : Nat := 0
deriving Repr

namespace Arena

/-- An arena without slots. -/
def empty : Arena α := {}

instance : Inhabited (Arena α) := ⟨empty⟩

/-- The number of stored values. -/
def size (arena : Arena α) : Nat := arena.live

def isEmpty (arena : Arena α) : Bool := arena.live == 0

/-- The value in a slot, if the slot exists and is in use. -/
def get? (arena : Arena α) (slot : Slot) : Option α := arena.slots[slot]?.join

/-- A slot is live while it holds a value. -/
def contains (arena : Arena α) (slot : Slot) : Bool := (arena.get? slot).isSome

/-- Store a value in the slot freed last, or in a new slot behind all others
when none is free. -/
def insert (arena : Arena α) (value : α) : Slot × Arena α :=
  match arena with
  | { slots, free := slot :: free, live } =>
      (slot, { slots := slots.setIfInBounds slot (some value), free, live := live + 1 })
  | { slots, free := [], live } =>
      (slots.size, { slots := slots.push (some value), free := [], live := live + 1 })

/-- Take the value out of a slot and free the slot. A slot that is not live
yields nothing and leaves the arena as it was. -/
def remove (arena : Arena α) (slot : Slot) : Option α × Arena α :=
  match arena.get? slot with
  | none => (none, arena)
  | some value =>
      let { slots, free, live } := arena
      (some value,
        { slots := slots.setIfInBounds slot none, free := slot :: free, live := live - 1 })

/-- Change the value in a slot. A slot that is not live is left alone. -/
def modify (arena : Arena α) (slot : Slot) (change : α → α) : Arena α :=
  { arena with slots := arena.slots.modify slot (Option.map change) }

/-- Write a value over the one in a live slot, and yield the old one. -/
def replace (arena : Arena α) (slot : Slot) (value : α) : Option α × Arena α :=
  (arena.get? slot, arena.modify slot fun _ => value)

/-- Drop every value and forget every slot. Numbering starts again from zero. -/
def clear (_arena : Arena α) : Arena α := empty

/-- Where there are no slots there are no values. -/
@[simp]
theorem get?_empty (slot : Slot) : (empty : Arena α).get? slot = none := rfl

/-- A change reaches the value in its own slot and no other. -/
@[simp]
theorem get?_modify (arena : Arena α) (slot other : Slot) (change : α → α) :
    (arena.modify slot change).get? other =
      if slot = other then (arena.get? other).map change else arena.get? other := by
  simp only [get?, modify, Array.getElem?_modify]
  split
  · cases arena.slots[other]? with
    | none => rfl
    | some value => rfl
  · rfl

/-- What is taken out is what was there. -/
@[simp]
theorem fst_remove (arena : Arena α) (slot : Slot) :
    (arena.remove slot).1 = arena.get? slot := by
  unfold remove
  cases arena.get? slot <;> rfl

/-- A slot that is not live cannot be freed a second time. -/
theorem remove_of_get?_eq_none {arena : Arena α} {slot : Slot}
    (absent : arena.get? slot = none) : arena.remove slot = (none, arena) := by
  simp [remove, absent]

/-- A removal empties its own slot and no other. -/
theorem get?_snd_remove (arena : Arena α) (slot other : Slot) :
    (arena.remove slot).2.get? other = if slot = other then none else arena.get? other := by
  cases found : arena.get? slot with
  | none =>
      rw [remove_of_get?_eq_none found]
      split
      · next same => exact same ▸ found
      · rfl
  | some value =>
      simp only [remove, found]
      simp only [get?, Array.getElem?_setIfInBounds]
      split
      · split <;> rfl
      · rfl

/-- What can be asked of an arena. -/
inductive Operation (α : Type u) where
  | insert (value : α)
  | remove (slot : Slot)
  | get (slot : Slot)
  | set (slot : Slot) (value : α)
  | contains (slot : Slot)
  | isEmpty
  | clear
deriving Repr

/-- Carry out one operation. -/
def perform (arena : Arena α) : Operation α → SlotAnswer α × Arena α
  | .insert value =>
      let (slot, arena) := arena.insert value
      (.slot (some slot), arena)
  | .remove slot =>
      let (value, arena) := arena.remove slot
      (.value value, arena)
  | .get slot => (.value (arena.get? slot), arena)
  | .set slot value =>
      let (old, arena) := arena.replace slot value
      (.value old, arena)
  | .contains slot => (.flag (arena.contains slot), arena)
  | .isEmpty => (.flag arena.isEmpty, arena)
  | .clear => (.done, arena.clear)

/-- Carry out operations in order, and yield their answers in that order. -/
def run (arena : Arena α) : List (Operation α) → List (SlotAnswer α) × Arena α
  | [] => ([], arena)
  | operation :: rest =>
      let (answer, arena) := arena.perform operation
      let (answers, arena) := arena.run rest
      (answer :: answers, arena)

end Arena

end GraphsAndCaches
