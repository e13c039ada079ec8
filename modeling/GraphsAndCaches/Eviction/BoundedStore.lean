import GraphsAndCaches.Eviction.Counters
import GraphsAndCaches.Eviction.Policy
import GraphsAndCaches.Eviction.Roster
import GraphsAndCaches.Eviction.Store

/-!
# Bounded stores

A bounded store is a roster that never grows beyond its capacity. A new key that
meets a full store first drives out the oldest entry of the roster. Under the
policy `lru` every use of an entry makes it the newest one, so that the oldest
entry is the least recently used; under `fifo` the order is that of arrival.

A capacity of zero is honoured. Such a store is always full and holds nothing,
and an insertion into it is not even counted.

Each operation counts itself, with the exceptions that its comment names.
Operations beyond those of every store are listed in `BoundedStore.Command`.
-/

namespace GraphsAndCaches

variable {policy : Policy} {κ ν : Type} [DecidableEq κ] [Hashable κ]

/-- At most `capacity` entries, which leave as `policy` decides. -/
structure BoundedStore (policy : Policy) (κ ν : Type) [DecidableEq κ] [Hashable κ] where
  capacity : Nat
  roster : Roster κ ν := {}
  counters : Counters := {}

/-- A store from which the least recently used entry leaves. -/
abbrev LruStore (κ ν : Type) [DecidableEq κ] [Hashable κ] := BoundedStore .lru κ ν

/-- A store from which the entry that arrived first leaves. -/
abbrev FifoStore (κ ν : Type) [DecidableEq κ] [Hashable κ] := BoundedStore .fifo κ ν

namespace BoundedStore

/-- The empty store of a given capacity. -/
def ofCapacity (capacity : Nat) : BoundedStore policy κ ν := { capacity }

/-- The empty store of a given capacity, which must not be zero. -/
def ofPositiveCapacity (capacity : Nat) :
    Except ConfigurationError (BoundedStore policy κ ν) :=
  if capacity = 0 then throw (.zeroCapacity policy.label) else pure (ofCapacity capacity)

def size (store : BoundedStore policy κ ν) : Nat := store.roster.size

def isEmpty (store : BoundedStore policy κ ν) : Bool := store.size == 0

def isFull (store : BoundedStore policy κ ν) : Bool := store.size == store.capacity

/-- The entries, the newest one first. -/
def toList (store : BoundedStore policy κ ν) : List (κ × ν) := store.roster.toList

/-- The counters, with the present size and the capacity. -/
def snapshot (store : BoundedStore policy κ ν) : Snapshot :=
  store.counters.snapshot store.size store.capacity

/-- Count an event. -/
def count (store : BoundedStore policy κ ν) (event : Counters.Event) :
    BoundedStore policy κ ν :=
  { store with counters := store.counters.record event }

/-- Whether a key has an entry. -/
def contains (store : BoundedStore policy κ ν) (key : κ) : Bool := store.roster.contains key

/-- The value of a key. Such a look is not counted and moves nothing. -/
def read (store : BoundedStore policy κ ν) (key : κ) : Option ν := store.roster.get? key

/-- The number of entries newer than that of a key. -/
def rank? (store : BoundedStore policy κ ν) (key : κ) : Option Nat := store.roster.rank? key

/-- The entry that leaves first, whether or not the store is full. -/
def oldest? (store : BoundedStore policy κ ν) : Option (κ × ν) := store.roster.back?

/-- The entry that the next new key drives out. There is none unless the store
is full. -/
def nextErasure (store : BoundedStore policy κ ν) : Option (κ × ν) :=
  if store.isFull then store.oldest? else none

/-- Use the entry of a key without reading it, and tell whether there is one.
This is not counted. -/
def touch (store : BoundedStore policy κ ν) (key : κ) : Bool × BoundedStore policy κ ν :=
  if policy.promotesOnUse then
    let { capacity, roster, counters } := store
    let (found, roster) := roster.promote key
    (found, { capacity, roster, counters })
  else (store.contains key, store)

/-- Read a value as a use of its key. -/
def get (store : BoundedStore policy κ ν) (key : κ) : Option ν × BoundedStore policy κ ν :=
  if store.contains key then
    let (_, store) := (store.count .getHit).touch key
    (store.read key, store)
  else (none, store.count .getMiss)

/-- Take out the entry that leaves first. This is not counted. -/
def popOldest (store : BoundedStore policy κ ν) :
    Option (κ × ν) × BoundedStore policy κ ν :=
  let { capacity, roster, counters } := store
  let (entry, roster) := roster.popBack
  (entry, { capacity, roster, counters })

/-- Drive out one entry if the store is full. -/
def makeRoom (store : BoundedStore policy κ ν) : BoundedStore policy κ ν :=
  if store.capacity ≤ store.size then
    match store.popOldest with
    | (some _, store) => store.count .eviction
    | (none, store) => store
  else store

/-- Write a value over that of a key that has one. This is a use of the key. -/
def update (store : BoundedStore policy κ ν) (key : κ) (value : ν) :
    Option ν × BoundedStore policy κ ν :=
  let (_, { capacity, roster, counters }) := (store.count .insertUpdate).touch key
  let (old, roster) := roster.replace key value
  (old, { capacity, roster, counters })

/-- Add an entry for a key that has none, after making room for it. -/
def addNew (store : BoundedStore policy κ ν) (key : κ) (value : ν) :
    BoundedStore policy κ ν :=
  let { capacity, roster, counters } := store.makeRoom.count .insertNew
  { capacity, roster := roster.pushFront key value, counters }

/-- Write a value under a key, and yield the one that it replaces. A new key is
refused without a trace when the capacity is zero. -/
def insert (store : BoundedStore policy κ ν) (key : κ) (value : ν) :
    Option ν × BoundedStore policy κ ν :=
  if store.contains key then store.update key value
  else if store.capacity = 0 then (none, store)
  else (none, store.addNew key value)

/-- Take out the entry of a key, and yield its value. -/
def erase (store : BoundedStore policy κ ν) (key : κ) :
    Option ν × BoundedStore policy κ ν :=
  let { capacity, roster, counters } := store
  let (value, roster) := roster.remove key
  (value, count { capacity, roster, counters } (.erase value.isSome))

/-- Drop all entries. -/
def clear (store : BoundedStore policy κ ν) : BoundedStore policy κ ν :=
  count { store with roster := store.roster.clear } .clear

/-- The index and the order describe the same entries, within the capacity. -/
def check (store : BoundedStore policy κ ν) : Except InvariantViolation Unit :=
  store.roster.check store.capacity

/-! ## No operation changes the capacity -/

@[simp]
theorem capacity_count (store : BoundedStore policy κ ν) (event : Counters.Event) :
    (store.count event).capacity = store.capacity := rfl

@[simp]
theorem capacity_touch (store : BoundedStore policy κ ν) (key : κ) :
    (store.touch key).2.capacity = store.capacity := by
  unfold touch
  split <;> rfl

@[simp]
theorem capacity_get (store : BoundedStore policy κ ν) (key : κ) :
    (store.get key).2.capacity = store.capacity := by
  unfold get
  split
  · exact capacity_touch (store.count .getHit) key
  · rfl

@[simp]
theorem capacity_popOldest (store : BoundedStore policy κ ν) :
    store.popOldest.2.capacity = store.capacity := rfl

@[simp]
theorem capacity_makeRoom (store : BoundedStore policy κ ν) :
    store.makeRoom.capacity = store.capacity := by
  unfold makeRoom
  split
  · split
    · next popped => exact congrArg (·.2.capacity) popped.symm
    · next popped => exact congrArg (·.2.capacity) popped.symm
  · rfl

@[simp]
theorem capacity_insert (store : BoundedStore policy κ ν) (key : κ) (value : ν) :
    (store.insert key value).2.capacity = store.capacity := by
  unfold insert
  split
  · exact capacity_touch (store.count .insertUpdate) key
  · split
    · rfl
    · exact capacity_makeRoom store

@[simp]
theorem capacity_erase (store : BoundedStore policy κ ν) (key : κ) :
    (store.erase key).2.capacity = store.capacity := rfl

/-! ## The store as one of many -/

/-- A store of capacity zero refuses a new key without a trace. -/
theorem insert_of_capacity_eq_zero {store : BoundedStore policy κ ν} {key : κ}
    (zero : store.capacity = 0) (absent : store.contains key = false) (value : ν) :
    store.insert key value = (none, store) := by
  simp [insert, zero, absent]

instance : Observable (BoundedStore policy κ ν) κ ν where
  capacity := capacity
  size := size
  isEmpty := isEmpty
  isFull := isFull
  find := contains
  peek := read
  nextErasure := nextErasure
  afterFind store := store.count .find
  afterPeek store := store.count .peek

instance {m : Type → Type} [Monad m] : Store m (BoundedStore policy κ ν) κ ν where
  get store key := pure (store.get key)
  insert store key value := pure (store.insert key value)
  erase store key := pure (store.erase key)
  clear store := pure store.clear

/-- What can be asked of a bounded store: the requests that every store takes,
and those that rest on its order. -/
inductive Command (κ ν : Type) where
  | request (request : Request κ ν)
  | read (key : κ)
  | touch (key : κ)
  | rank (key : κ)
  | oldest
  | popOldest
  | entries
  | check
deriving DecidableEq, Repr

/-- Carry out one command. -/
def perform (store : BoundedStore policy κ ν) :
    Command κ ν → Reply κ ν × BoundedStore policy κ ν
  | .request request => Id.run (Store.perform store request)
  | .read key => (.value (store.read key), store)
  | .touch key =>
      let (found, store) := store.touch key
      (.flag found, store)
  | .rank key => (.rank (store.rank? key), store)
  | .oldest => (.entry store.oldest?, store)
  | .popOldest =>
      let (entry, store) := store.popOldest
      (.entry entry, store)
  | .entries => (.entries store.toList, store)
  | .check =>
      match store.check with
      | .ok () => (.verdict none, store)
      | .error defect => (.verdict (some defect), store)

/-- Carry out commands in order, and yield their replies in that order. -/
def run (store : BoundedStore policy κ ν) :
    List (Command κ ν) → List (Reply κ ν) × BoundedStore policy κ ν
  | [] => ([], store)
  | command :: rest =>
      let (reply, store) := store.perform command
      let (replies, store) := store.run rest
      (reply :: replies, store)

end BoundedStore

end GraphsAndCaches
