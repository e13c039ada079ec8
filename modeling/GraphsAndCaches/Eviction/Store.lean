import GraphsAndCaches.Reply

/-!
# Stores

A store keeps at most `capacity` entries and decides by a rule of its own which
entry leaves when a new one arrives at a full store. Caches work over any store,
and so the interface is split in two.

`Observable` holds the questions that leave the entries and their order alone.
A store that counts such questions notes them with `afterFind` and `afterPeek`.
`Store` holds the operations that may change the entries. They run in a monad,
which is that of the caller: a store that is a plain value works in every
monad, and a store that reports to the outside works in the monad that lets it.

A well-behaved store that is full and is given a new key drops exactly the entry
that `nextErasure` named, and `nextErasure` names an entry only when the store is
full. Nothing here enforces this.
-/

namespace GraphsAndCaches

/-- The questions that a store `σ` with keys `κ` and values `ν` answers about
itself. -/
class Observable (σ : Type) (κ ν : outParam Type) where
  /-- The greatest number of entries. -/
  capacity : σ → Nat
  /-- The present number of entries. -/
  size : σ → Nat
  isEmpty : σ → Bool := fun store => size store == 0
  isFull : σ → Bool := fun store => size store == capacity store
  /-- Whether a key has an entry. -/
  find : σ → κ → Bool
  /-- The value of a key, read without an effect on what leaves next. -/
  peek : σ → κ → Option ν
  /-- The entry that the next new key would drive out. -/
  nextErasure : σ → Option (κ × ν)
  /-- The store once it has noted that it was asked for a key. -/
  afterFind : σ → σ := id
  /-- The store once it has noted that it was asked for a value. -/
  afterPeek : σ → σ := id

/-- The operations that may change a store. -/
class Store (m : Type → Type) (σ : Type) (κ ν : outParam Type) [Observable σ κ ν] where
  /-- Read a value as a use of its key. The store may reorder its entries. -/
  get : σ → κ → m (Option ν × σ)
  /-- Write a value under a key, and yield the one that it replaces. -/
  insert : σ → κ → ν → m (Option ν × σ)
  /-- Take out the entry of a key, and yield its value. -/
  erase : σ → κ → m (Option ν × σ)
  /-- Drop all entries. -/
  clear : σ → m σ

/-- What can be asked of every store and of every cache over a store. -/
inductive Request (κ ν : Type) where
  | insert (key : κ) (value : ν)
  | get (key : κ)
  | peek (key : κ)
  | find (key : κ)
  | erase (key : κ)
  | clear
  | nextErasure
  | size
  | capacity
  | isEmpty
  | isFull
deriving DecidableEq, Repr

namespace Store

variable {m : Type → Type} [Monad m] {σ κ ν : Type} [Observable σ κ ν] [Store m σ κ ν]

/-- Carry out one request. -/
def perform (store : σ) : Request κ ν → m (Reply κ ν × σ)
  | .insert key value => do
      let (old, store) ← Store.insert store key value
      return (.value old, store)
  | .get key => do
      let (value, store) ← Store.get store key
      return (.value value, store)
  | .peek key =>
      return (.value (Observable.peek store key), Observable.afterPeek store)
  | .find key =>
      return (.flag (Observable.find store key), Observable.afterFind store)
  | .erase key => do
      let (value, store) ← Store.erase store key
      return (.value value, store)
  | .clear => do
      let store ← Store.clear store
      return (.done, store)
  | .nextErasure => return (.entry (Observable.nextErasure store), store)
  | .size => return (.count (Observable.size store), store)
  | .capacity => return (.count (Observable.capacity store), store)
  | .isEmpty => return (.flag (Observable.isEmpty store), store)
  | .isFull => return (.flag (Observable.isFull store), store)

/-- Carry out requests in order, and yield their replies in that order. -/
def run (store : σ) : List (Request κ ν) → m (List (Reply κ ν) × σ)
  | [] => return ([], store)
  | request :: rest => do
      let (reply, store) ← perform store request
      let (replies, store) ← run store rest
      return (reply :: replies, store)

end Store

end GraphsAndCaches
