import GraphsAndCaches.Eviction.EvictingCache

/-!
# Recording what happens around a store

Recording callbacks write every announcement of a cache into a log. A recorded
store writes every changing call into a log before it hands the call on to the
store inside; questions pass silently. With both over one log, the log shows in
which order a cache calls its store and its callbacks.
-/

namespace GraphsAndCaches

/-- Something that a log remembers: an announcement, or a call of the store. -/
inductive Occurrence (κ ν : Type) where
  | inserted (key : κ) (value : ν)
  | evicted (key : κ) (value : ν)
  | storeGet (key : κ)
  | storeInsert (key : κ) (value : ν)
  | storeErase (key : κ)
  | storeClear
deriving DecidableEq, Repr

/-- Occurrences in the order in which they came. -/
abbrev Log (κ ν : Type) := Array (Occurrence κ ν)

variable {κ ν σ : Type}

/-- Add an occurrence at the end of the log. -/
def Log.add (occurrence : Occurrence κ ν) : StateM (Log κ ν) Unit :=
  modify (·.push occurrence)

/-- Callbacks that do nothing but write. -/
def Callbacks.recording : Callbacks (Log κ ν) κ ν where
  onInsert key value := Log.add (.inserted key value)
  onEvict key value := Log.add (.evicted key value)

/-- A store whose changing calls are logged. -/
structure Recorded (σ : Type) where
  store : σ

namespace Recorded

/-- The questions are those of the store inside. -/
instance [Observable σ κ ν] : Observable (Recorded σ) κ ν where
  capacity recorded := Observable.capacity recorded.store
  size recorded := Observable.size recorded.store
  isEmpty recorded := Observable.isEmpty recorded.store
  isFull recorded := Observable.isFull recorded.store
  find recorded := Observable.find recorded.store
  peek recorded := Observable.peek recorded.store
  nextErasure recorded := Observable.nextErasure recorded.store
  afterFind recorded := ⟨Observable.afterFind recorded.store⟩
  afterPeek recorded := ⟨Observable.afterPeek recorded.store⟩

instance [Observable σ κ ν] [Store Id σ κ ν] : Store (StateM (Log κ ν)) (Recorded σ) κ ν where
  get recorded key := do
    Log.add (.storeGet key)
    let (value, store) := Id.run (Store.get recorded.store key)
    return (value, ⟨store⟩)
  insert recorded key value := do
    Log.add (.storeInsert key value)
    let (old, store) := Id.run (Store.insert recorded.store key value)
    return (old, ⟨store⟩)
  erase recorded key := do
    Log.add (.storeErase key)
    let (value, store) := Id.run (Store.erase recorded.store key)
    return (value, ⟨store⟩)
  clear recorded := do
    Log.add .storeClear
    let store := Id.run (Store.clear recorded.store)
    return ⟨store⟩

end Recorded

end GraphsAndCaches
