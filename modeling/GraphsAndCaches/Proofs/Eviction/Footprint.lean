import GraphsAndCaches.Proofs.Eviction.BoundedStore
import GraphsAndCaches.Proofs.Slots.Footprint

/-!
# A store never outgrows its capacity

A bounded store drives out an entry before it adds another one, and every way in which an entry
leaves gives its slot back. The list of a store therefore never has more slots, live and free
together, than the store may have entries. No slot beyond the capacity is ever issued: neither
the index nor a link nor the list of free slots names one.

The number of slots changes in two places only. A new entry may take a new slot, but then every
slot is live, and there are no more entries than the capacity admits. A clearing forgets all
slots.
-/

namespace GraphsAndCaches

variable {κ ν : Type} [DecidableEq κ] [Hashable κ]

namespace Roster

variable {roster : Roster κ ν} {entries : Lineup κ ν}

@[simp]
theorem slotCount_promote (roster : Roster κ ν) (key : κ) :
    (roster.promote key).2.list.slotCount = roster.list.slotCount := by
  rw [promote]
  cases roster.index[key]? with
  | none => rfl
  | some slot => exact LinkedList.slotCount_moveToFront _ slot

@[simp]
theorem slotCount_replace (roster : Roster κ ν) (key : κ) (value : ν) :
    (roster.replace key value).2.list.slotCount = roster.list.slotCount := by
  rw [replace]
  cases roster.index[key]? with
  | none => rfl
  | some slot =>
      dsimp only
      cases roster.list.get? slot with
      | none => rfl
      | some entry => exact LinkedList.slotCount_replace _ slot _

@[simp]
theorem slotCount_remove (roster : Roster κ ν) (key : κ) :
    (roster.remove key).2.list.slotCount = roster.list.slotCount := by
  rw [remove]
  cases roster.index[key]? with
  | none => rfl
  | some slot => exact LinkedList.slotCount_remove _ slot

@[simp]
theorem slotCount_popBack (roster : Roster κ ν) :
    roster.popBack.2.list.slotCount = roster.list.slotCount := by
  have kept := LinkedList.slotCount_popBack roster.list
  rw [popBack]
  generalize roster.list.popBack = outcome at kept
  obtain ⟨entry, list⟩ := outcome
  cases entry <;> exact kept

/-- A new entry takes a new slot only when all others have entries. -/
theorem slotCount_pushFront (holds : Holds roster entries) (key : κ) (value : ν) :
    (roster.pushFront key value).list.slotCount =
      max (roster.pushFront key value).list.size roster.list.slotCount := by
  obtain ⟨rows, lists, -⟩ := holds
  exact LinkedList.slotCount_pushFront lists.represents (key, value)

end Roster

namespace BoundedStore

variable {policy : Policy} {store : BoundedStore policy κ ν} {capacity : Nat}
variable {entries : Lineup κ ν}

/-- The number of slots that a store has for its entries. -/
def slotCount (store : BoundedStore policy κ ν) : Nat := store.roster.list.slotCount

/-- A store holds no more slots than this, and names no others. -/
structure KeepsWithin (store : BoundedStore policy κ ν) (bound : Nat) : Prop where
  /-- Every slot is live or free. -/
  live_add_free : store.roster.list.nodes.liveSlots.length +
    store.roster.list.nodes.free.length = store.slotCount
  slotCount_le : store.slotCount ≤ bound
  /-- The index has no more keys than that. -/
  size_index_le : store.roster.index.size ≤ bound
  indexed : ∀ (key : κ) (slot : Slot), store.roster.index[key]? = some slot → slot < bound
  /-- The list begins and ends within the bound. -/
  ends : ∀ slot, store.roster.list.newest = some slot ∨ store.roster.list.oldest = some slot →
    slot < bound
  /-- Its nodes lie within the bound, and so do their neighbours. -/
  links : ∀ slot node, store.roster.list.nodes.get? slot = some node → slot < bound ∧
    ∀ neighbour, node.newer = some neighbour ∨ node.older = some neighbour → neighbour < bound
  free : ∀ slot ∈ store.roster.list.nodes.free, slot < bound

@[simp]
theorem slotCount_count (store : BoundedStore policy κ ν) (event : Counters.Event) :
    (store.count event).slotCount = store.slotCount := rfl

@[simp]
theorem slotCount_touch (store : BoundedStore policy κ ν) (key : κ) :
    (store.touch key).2.slotCount = store.slotCount := by
  rw [touch]
  split
  · exact Roster.slotCount_promote store.roster key
  · rfl

@[simp]
theorem slotCount_get (store : BoundedStore policy κ ν) (key : κ) :
    (store.get key).2.slotCount = store.slotCount := by
  rw [get]
  split
  · exact slotCount_touch (store.count .getHit) key
  · rfl

@[simp]
theorem slotCount_popOldest (store : BoundedStore policy κ ν) :
    store.popOldest.2.slotCount = store.slotCount :=
  Roster.slotCount_popBack store.roster

@[simp]
theorem slotCount_makeRoom (store : BoundedStore policy κ ν) :
    store.makeRoom.slotCount = store.slotCount := by
  have kept := slotCount_popOldest store
  rw [makeRoom]
  split
  · generalize store.popOldest = outcome at kept
    obtain ⟨entry, rest⟩ := outcome
    cases entry <;> exact kept
  · rfl

@[simp]
theorem slotCount_update (store : BoundedStore policy κ ν) (key : κ) (value : ν) :
    (store.update key value).2.slotCount = store.slotCount :=
  (Roster.slotCount_replace _ key value).trans (slotCount_touch (store.count .insertUpdate) key)

@[simp]
theorem slotCount_erase (store : BoundedStore policy κ ν) (key : κ) :
    (store.erase key).2.slotCount = store.slotCount :=
  Roster.slotCount_remove store.roster key

namespace Holds

variable (holds : Holds store capacity entries) (within : store.slotCount ≤ capacity)
include holds within

/-- Where room was made for a new entry, there is a slot for it within the capacity. -/
theorem slotCount_addNew_le {key : κ} (absent : entries.lookup key = none)
    (positive : 0 < capacity) (value : ν) : (store.addNew key value).slotCount ≤ capacity := by
  have added := holds.addNew absent positive value
  have fits : (store.addNew key value).roster.list.size ≤ capacity := by
    obtain ⟨rows, lists, listed⟩ := added.roster
    rw [lists.represents.size_eq, ← List.length_map, listed]
    exact added.fits
  have room : store.makeRoom.slotCount ≤ capacity := by rwa [slotCount_makeRoom]
  have slots : (store.addNew key value).slotCount = _ :=
    Roster.slotCount_pushFront holds.makeRoom.roster key value
  rw [slots]
  exact Nat.max_le.mpr ⟨fits, room⟩

theorem slotCount_insert_le (key : κ) (value : ν) :
    (store.insert key value).2.slotCount ≤ capacity := by
  rw [BoundedStore.insert, holds.contains_eq key, holds.capacity_eq]
  cases found : entries.lookup key with
  | some old =>
      change (store.update key value).2.slotCount ≤ capacity
      rwa [slotCount_update]
  | none =>
      by_cases zero : capacity = 0
      · rw [if_pos zero]
        exact within
      · rw [if_neg zero]
        exact holds.slotCount_addNew_le within found (Nat.pos_of_ne_zero zero) value

/-- No command takes a slot beyond the capacity. -/
theorem slotCount_perform_le (command : Command κ ν) :
    (store.perform command).2.slotCount ≤ capacity := by
  cases command with
  | request request =>
      cases request with
      | insert key value => exact holds.slotCount_insert_le within key value
      | get key => exact Nat.le_trans (Nat.le_of_eq (slotCount_get store key)) within
      | erase key => exact Nat.le_trans (Nat.le_of_eq (slotCount_erase store key)) within
      | clear => exact Nat.zero_le capacity
      | _ => exact within
  | touch key => exact Nat.le_trans (Nat.le_of_eq (slotCount_touch store key)) within
  | popOldest => exact Nat.le_trans (Nat.le_of_eq (slotCount_popOldest store)) within
  | check =>
      rw [BoundedStore.perform, holds.check_eq]
      exact within
  | _ => exact within

omit holds within in
/-- No run of commands does. -/
theorem slotCount_run_le (holds : Holds store capacity entries)
    (within : store.slotCount ≤ capacity) (commands : List (Command κ ν)) :
    (store.run commands).2.slotCount ≤ capacity := by
  induction commands generalizing store entries with
  | nil => exact within
  | cons command rest inductionHypothesis =>
      exact inductionHypothesis (holds.perform command).2 (holds.slotCount_perform_le within command)

/-- What bounds the number of slots bounds the slots that are named. -/
theorem keepsWithin : store.KeepsWithin capacity := by
  obtain ⟨rows, lists, listed⟩ := holds.roster
  have represents := lists.represents
  have wellFormed := represents.holds.wellFormed
  have inside : ∀ {slot : Slot}, slot ∈ rows.map Prod.fst → slot < capacity :=
    fun member => Nat.lt_of_lt_of_le (represents.lt_slotCount member) within
  refine
    { live_add_free := ?live_add_free
      slotCount_le := within
      size_index_le := ?size_index_le
      indexed := ?indexed
      ends := fun slot last => inside (represents.mem_of_end last)
      links := ?links
      free := ?free }
  case live_add_free =>
    rw [Arena.length_liveSlots wellFormed]
    exact wellFormed.live_add_length_free
  case size_index_le =>
    have counted : store.roster.index.size = entries.length := holds.size_eq
    rw [counted]
    exact holds.fits
  case indexed =>
    intro key slot found
    obtain ⟨value, row⟩ := (lists.indexed.slot_iff key slot).mp found
    exact inside (List.mem_map_of_mem row)
  case links =>
    intro slot node stored
    constructor
    · exact Nat.lt_of_lt_of_le (Arena.lt_size_of_get?_eq_some stored) within
    · intro neighbour link
      exact inside (represents.mem_of_link stored link)
  case free =>
    intro slot member
    exact Nat.lt_of_lt_of_le (Arena.lt_size_of_mem_free wellFormed member) within

end Holds

/-- Whatever commands led to a store of whichever policy, it has no more slots than its capacity,
live and free together, and neither its index nor its list names a slot beyond. In general, an
arena has at every moment of a run exactly as many slots as it had live ones at some moment since
it was cleared last, and never had more. -/
theorem slots_within_capacity {β : Type*} (policy : Policy) (capacity : Nat)
    (commands : List (Command κ ν)) (operations : List (Arena.Operation β)) :
    ((ofCapacity capacity : BoundedStore policy κ ν).run commands).2.KeepsWithin capacity ∧
      IsGreatest
        {live | ∃ moment, Arena.SinceForgotten operations moment ∧
          live = ((Arena.empty : Arena β).run moment).2.liveSlots.length}
        ((Arena.empty : Arena β).run operations).2.slots.size := by
  have fresh : Holds (ofCapacity capacity : BoundedStore policy κ ν) capacity [] :=
    holds_ofCapacity capacity
  have within := fresh.slotCount_run_le (Nat.zero_le capacity) commands
  constructor
  · exact (fresh.run commands).2.keepsWithin within
  · exact Arena.isGreatest_length_liveSlots operations

end BoundedStore

end GraphsAndCaches
