import GraphsAndCaches.Proofs.Eviction.BoundedStore
import GraphsAndCaches.Proofs.Slots.Sequence

/-!
# The index and the list of a store agree

A store keeps track of every entry twice: the list has its value and its place in the order,
and the index leads from its key to its slot in the list. `Roster.Agrees` says that the two
describe the same entries. The slot that the index has for a key holds an entry with this key,
and a slot that holds an entry is the one that the index has for the key of the entry.

The operations of a store follow the index into the list, and would answer that there is
nothing if the list had no node in the slot. `BoundedStore.Finds` says that this never happens:
they find the entry that the index promises, also when they have just moved it, and so a key
in the index is one that all of them know.
-/

namespace GraphsAndCaches

variable {κ ν : Type} [DecidableEq κ] [Hashable κ]

/-! ## Rosters -/

/-- What the operations that name a slot find there. -/
structure LinkedList.FindsNode {α : Type} (list : LinkedList α) (slot : Slot) (value : α) :
    Prop where
  get? : list.get? slot = some value
  moveToFront : (list.moveToFront slot).1 = true
  replace : ∀ written, (list.replace slot written).1 = some value
  remove : (list.remove slot).1 = some value

/-- The node of a row is found. -/
theorem LinkedList.Represents.findsNode {α : Type} {list : LinkedList α}
    {rows : List (Slot × α)} {slot : Slot} {value : α} (represents : list.Represents rows)
    (row : (slot, value) ∈ rows) : list.FindsNode slot value := by
  obtain ⟨above, below, rfl⟩ := List.append_of_mem row
  exact
    { get? := represents.get?_eq_some_iff.mpr row
      moveToFront := represents.moveToFront.1
      replace := fun written => (represents.replace written).1
      remove := represents.remove.1 }

namespace Roster

variable {roster : Roster κ ν} {rows : List (Slot × κ × ν)} {key : κ} {slot : Slot}

/-- The index and the list of a roster describe the same entries. -/
structure Agrees (roster : Roster κ ν) : Prop where
  /-- The index leads from each key to the slot of an entry with this key, and to each slot
  that holds an entry from the key of the entry. -/
  slot_iff : ∀ (key : κ) (slot : Slot), roster.index[key]? = some slot ↔
    ∃ value, roster.list.get? slot = some (key, value)
  /-- It leads from different keys to different slots. -/
  slot_injective : ∀ (first second : κ) (slot : Slot), roster.index[first]? = some slot →
    roster.index[second]? = some slot → first = second
  /-- What is met along the list is what the slots hold. -/
  mem_toList_iff : ∀ entry, entry ∈ roster.toList ↔ ∃ slot, roster.list.get? slot = some entry
  /-- No key is met twice. -/
  distinct : (roster.toList.map Prod.fst).Nodup
  length_eq : roster.toList.length = roster.list.size
  size_eq : roster.list.size = roster.index.size
  /-- The links of the list are those of a sequence. -/
  sound : roster.list.Sound

theorem Lists.agrees (lists : Lists roster rows) : roster.Agrees := by
  have represents := lists.represents
  have slot_iff : ∀ (key : κ) (slot : Slot), roster.index[key]? = some slot ↔
      ∃ value, roster.list.get? slot = some (key, value) := by
    intro key slot
    simp only [lists.indexed.slot_iff, represents.get?_eq_some_iff]
  refine
    { slot_iff
      slot_injective := ?slot_injective
      mem_toList_iff := ?mem_toList_iff
      distinct := lists.holds.toList_eq ▸ lists.holds.distinct
      length_eq := ?length_eq
      size_eq := represents.size_eq.trans lists.indexed.size.symm
      sound := represents.sound }
  case slot_injective =>
    intro first second slot firstFound secondFound
    obtain ⟨value, stored⟩ := (slot_iff first slot).mp firstFound
    obtain ⟨other, storedToo⟩ := (slot_iff second slot).mp secondFound
    exact congrArg Prod.fst (Option.some.inj (stored.symm.trans storedToo))
  case mem_toList_iff =>
    intro entry
    simp only [lists.holds.toList_eq, List.mem_map, Prod.exists, exists_eq_right,
      represents.get?_eq_some_iff]
  case length_eq => rw [lists.holds.toList_eq, List.length_map, represents.size_eq]

/-- The slot of a key is found, and again when the entry was moved to the front. -/
theorem Lists.findsNode (lists : Lists roster rows) (indexed : roster.index[key]? = some slot) :
    ∃ value, (key, value) ∈ rows.map Prod.snd ∧
      roster.list.FindsNode slot (key, value) ∧
      (roster.promote key).2.list.FindsNode slot (key, value) := by
  obtain ⟨value, row⟩ := (lists.indexed.slot_iff key slot).mp indexed
  refine ⟨value, List.mem_map_of_mem row, lists.represents.findsNode row, ?_⟩
  obtain ⟨above, below, rfl⟩ := List.append_of_mem row
  rw [promote_of_indexed indexed]
  exact lists.represents.moveToFront.2.findsNode List.mem_cons_self

/-- The entry at the back has its slot in the index, and is the one that is popped. -/
theorem Lists.oldest (lists : Lists roster rows) (last : roster.list.oldest = some slot) :
    ∃ key value, roster.index[key]? = some slot ∧ roster.popBack.1 = some (key, value) := by
  rw [lists.represents.linked.oldest, LinkedList.lastSlot_eq_getLast?,
    Option.map_eq_some_iff] at last
  obtain ⟨⟨slot, key, value⟩, last, rfl⟩ := last
  refine ⟨key, value, (lists.indexed.slot_iff key slot).mpr ⟨value, List.mem_of_getLast? last⟩, ?_⟩
  rw [lists.holds.popBack.1, List.getLast?_map, last, Option.map_some]

end Roster

/-! ## Stores -/

namespace BoundedStore

variable {policy : Policy} {store : BoundedStore policy κ ν} {capacity : Nat}
variable {entries : Lineup κ ν} {key : κ} {slot : Slot} {value : ν}

/-- The operations of a store find the entry of a key in its slot and know its value. -/
structure Finds (store : BoundedStore policy κ ν) (key : κ) (slot : Slot) (value : ν) :
    Prop where
  node : store.roster.list.FindsNode slot (key, value)
  /-- An entry that is used is read and written after it was moved. -/
  nodeTouched : (store.touch key).2.roster.list.FindsNode slot (key, value)
  contains : store.contains key = true
  read : store.read key = some value
  get : (store.get key).1 = some value
  touch : (store.touch key).1 = true
  insert : ∀ written, (store.insert key written).1 = some value
  erase : (store.erase key).1 = some value
  rank : ∃ position, store.rank? key = some position

/-- A key in the index is known to all operations. -/
theorem Holds.finds (holds : store.Holds capacity entries)
    (indexed : store.roster.index[key]? = some slot) : ∃ value, store.Finds key slot value := by
  obtain ⟨rows, lists, rfl⟩ := holds.roster
  obtain ⟨value, resident, node, nodePromoted⟩ := lists.findsNode indexed
  have found := (Lineup.lookup_eq_some_iff lists.holds.distinct).mpr resident
  refine ⟨value,
    { node
      nodeTouched := ?nodeTouched
      contains := (holds.contains_eq key).trans (Option.isSome_of_eq_some found)
      read := (holds.read_eq key).trans found
      get := (holds.get key).1.trans found
      touch := (holds.touch key).1.trans (Option.isSome_of_eq_some found)
      insert := fun written => (holds.insert key written).1.trans found
      erase := (holds.erase key).1.trans found
      rank := ?rank }⟩
  case nodeTouched =>
    rw [BoundedStore.touch]
    split
    · exact nodePromoted
    · exact node
  case rank =>
    rw [rank?, holds.roster.rank?_eq key]
    refine Option.isSome_iff_exists.mp (List.findIdx?_isSome.trans (List.any_eq_true.mpr ?_))
    exact ⟨(key, value), resident, beq_self_eq_true key⟩

/-- Whatever commands led to a store of whichever policy and capacity, its index and its list
describe the same entries, no more than the capacity admits, and the check of the store finds
nothing wrong. Every operation that follows the index finds the node that it is looking for,
and the entry that is popped is one that the index knows. -/
theorem run_agrees (policy : Policy) (capacity : Nat) (commands : List (Command κ ν)) :
    let store := ((ofCapacity capacity : BoundedStore policy κ ν).run commands).2
    store.roster.Agrees ∧
      store.roster.index.size ≤ capacity ∧
      store.check = .ok () ∧
      (∀ (key : κ) (slot : Slot), store.roster.index[key]? = some slot →
        ∃ value, store.Finds key slot value) ∧
      ∀ slot, store.roster.list.oldest = some slot →
        ∃ key value, store.roster.index[key]? = some slot ∧
          store.popOldest.1 = some (key, value) := by
  intro store
  have fresh : Holds (ofCapacity capacity : BoundedStore policy κ ν) capacity [] :=
    holds_ofCapacity capacity
  have holds : store.Holds capacity _ := (fresh.run commands).2
  obtain ⟨rows, lists, entries⟩ := holds.roster
  refine ⟨lists.agrees, ?_, holds.check_eq, fun key slot => holds.finds, fun slot => lists.oldest⟩
  have counted : store.roster.index.size = _ := holds.size_eq
  rw [counted]
  exact holds.fits

end BoundedStore

end GraphsAndCaches
