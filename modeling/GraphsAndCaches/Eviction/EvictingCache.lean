import GraphsAndCaches.Diagnostic
import GraphsAndCaches.Eviction.Store

/-!
# Evicting caches

An evicting cache is a store whose arrivals and departures are announced to two
callbacks. An insertion that is about to drive out an entry announces the
departure first, while the entry is still stored; then the store is changed; then
the arrival is announced with the value that the store now holds. An erasure is
announced as a departure after it happened. Emptying the cache is silent.

The cache never keeps entries of its own. It learns what will leave from the
store, and whether an entry was accepted from the store as well, so that a store
that refuses an entry causes no announcement of an arrival.
-/

namespace GraphsAndCaches

/-- The code that learns of arrivals and departures. Its state is `ω`. -/
structure Callbacks (ω κ ν : Type) where
  onInsert : κ → ν → StateM ω Unit
  onEvict : κ → ν → StateM ω Unit

/-- A store under observation. -/
structure EvictingCache (ω σ κ ν : Type) where
  store : σ
  callbacks : Callbacks ω κ ν

namespace EvictingCache

variable {ω σ κ ν : Type}

/-- The cache in one line, with the text of its store in the middle. -/
def describe [ToString σ] (cache : EvictingCache ω σ κ ν) : String :=
  "EvictingCache \x7b scheme: " ++ toString cache.store ++ ", .. \x7d"

variable [Observable σ κ ν]

def capacity (cache : EvictingCache ω σ κ ν) : Nat := Observable.capacity cache.store

def size (cache : EvictingCache ω σ κ ν) : Nat := Observable.size cache.store

def isEmpty (cache : EvictingCache ω σ κ ν) : Bool := Observable.isEmpty cache.store

def isFull (cache : EvictingCache ω σ κ ν) : Bool := Observable.isFull cache.store

/-- Whether a key has an entry. The store notes the question. -/
def find (cache : EvictingCache ω σ κ ν) (key : κ) : Bool × EvictingCache ω σ κ ν :=
  (Observable.find cache.store key, { cache with store := Observable.afterFind cache.store })

/-- The value of a key. The store notes the question. -/
def peek (cache : EvictingCache ω σ κ ν) (key : κ) : Option ν × EvictingCache ω σ κ ν :=
  (Observable.peek cache.store key, { cache with store := Observable.afterPeek cache.store })

/-- Announce the entry that a new key is about to drive out, if there is one. -/
def announceEviction (cache : EvictingCache ω σ κ ν) : Act ω Unit :=
  if cache.isFull then
    match Observable.nextErasure cache.store with
    | some (key, value) => do
        Act.record (.evicting cache.size)
        Act.call (cache.callbacks.onEvict key value)
    | none => pure ()
  else pure ()

/-- Announce the entry of `key` as the store now holds it, and tell whether
there is one. -/
def announceArrival (cache : EvictingCache ω σ κ ν) (key : κ) :
    Act ω (Bool × EvictingCache ω σ κ ν) :=
  match cache.peek key with
  | (some value, cache) => do
      Act.call (cache.callbacks.onInsert key value)
      return (true, cache)
  | (none, cache) => return (false, cache)

/-- Let an operation change the store. -/
def changeStore {α : Type} (cache : EvictingCache ω σ κ ν)
    (operation : σ → StateM ω (α × σ)) : Act ω (α × EvictingCache ω σ κ ν) :=
  match cache with
  | { store, callbacks } => do
      let (answer, store) ← Act.call (operation store)
      return (answer, { store, callbacks })

variable [Store (StateM ω) σ κ ν]

/-- Write a value under a key, and tell whether the store holds it then. When
the capacity is zero nothing is asked, changed or announced. -/
def insert (cache : EvictingCache ω σ κ ν) (key : κ) (value : ν) :
    Act ω (Bool × EvictingCache ω σ κ ν) :=
  if cache.capacity = 0 then return (false, cache)
  else do
    let (found, cache) := cache.find key
    unless found do cache.announceEviction
    let (_, cache) ← cache.changeStore (Store.insert · key value)
    cache.announceArrival key

/-- Take out the entry of a key, announce its departure, and tell whether there
was one. -/
def erase (cache : EvictingCache ω σ κ ν) (key : κ) : Act ω (Bool × EvictingCache ω σ κ ν) := do
  let (removed, cache) ← cache.changeStore (Store.erase · key)
  match removed with
  | some value =>
      Act.call (cache.callbacks.onEvict key value)
      return (true, cache)
  | none => return (false, cache)

/-- Read a value as a use of its key. -/
def get (cache : EvictingCache ω σ κ ν) (key : κ) :
    Act ω (Option ν × EvictingCache ω σ κ ν) :=
  cache.changeStore (Store.get · key)

/-- Drop all entries without an announcement. -/
def clear (cache : EvictingCache ω σ κ ν) : Act ω (EvictingCache ω σ κ ν) := do
  let ((), cache) ← cache.changeStore fun store => do return ((), ← Store.clear store)
  return cache

/-- Carry out one request. Insertions and erasures are answered by a flag. -/
def perform (cache : EvictingCache ω σ κ ν) :
    Request κ ν → Act ω (Reply κ ν × EvictingCache ω σ κ ν)
  | .insert key value => do
      let (stored, cache) ← cache.insert key value
      return (.flag stored, cache)
  | .get key => do
      let (value, cache) ← cache.get key
      return (.value value, cache)
  | .peek key =>
      let (value, cache) := cache.peek key
      return (.value value, cache)
  | .find key =>
      let (found, cache) := cache.find key
      return (.flag found, cache)
  | .erase key => do
      let (removed, cache) ← cache.erase key
      return (.flag removed, cache)
  | .clear => do
      let cache ← cache.clear
      return (.done, cache)
  | .nextErasure => return (.entry (Observable.nextErasure cache.store), cache)
  | .size => return (.count cache.size, cache)
  | .capacity => return (.count cache.capacity, cache)
  | .isEmpty => return (.flag cache.isEmpty, cache)
  | .isFull => return (.flag cache.isFull, cache)

/-- Carry out requests in order, and yield their replies in that order. -/
def run (cache : EvictingCache ω σ κ ν) :
    List (Request κ ν) → Act ω (List (Reply κ ν) × EvictingCache ω σ κ ν)
  | [] => return ([], cache)
  | request :: rest => do
      let (reply, cache) ← cache.perform request
      let (replies, cache) ← cache.run rest
      return (reply :: replies, cache)

end EvictingCache

end GraphsAndCaches
