/-!
# Counters of a store

A store counts what it was asked to do and what came of it. `Counters.record`
is the only way in which a counter changes: one event, one step.

A snapshot copies the counters together with the size and the capacity of the
store at that moment, and adds the number of `get` calls, which is the sum of
its hits and misses.
-/

namespace GraphsAndCaches

/-- The running totals of a store. -/
structure Counters where
  getHits : Nat := 0
  getMisses : Nat := 0
  insertNew : Nat := 0
  insertUpdates : Nat := 0
  evictions : Nat := 0
  eraseCalls : Nat := 0
  eraseFound : Nat := 0
  clears : Nat := 0
  findCalls : Nat := 0
  peekCalls : Nat := 0
deriving DecidableEq, Repr

/-- The events that are counted. -/
inductive Counters.Event where
  | getHit
  | getMiss
  | insertNew
  | insertUpdate
  | eviction
  | erase (found : Bool)
  | clear
  | find
  | peek
deriving DecidableEq, Repr

/-- Count one event. An erasure counts as a call, and again when it found its key. -/
def Counters.record (counters : Counters) : Event → Counters
  | .getHit => { counters with getHits := counters.getHits + 1 }
  | .getMiss => { counters with getMisses := counters.getMisses + 1 }
  | .insertNew => { counters with insertNew := counters.insertNew + 1 }
  | .insertUpdate => { counters with insertUpdates := counters.insertUpdates + 1 }
  | .eviction => { counters with evictions := counters.evictions + 1 }
  | .erase found =>
      { counters with
        eraseCalls := counters.eraseCalls + 1
        eraseFound := counters.eraseFound + found.toNat }
  | .clear => { counters with clears := counters.clears + 1 }
  | .find => { counters with findCalls := counters.findCalls + 1 }
  | .peek => { counters with peekCalls := counters.peekCalls + 1 }

/-- The counters of a store at one moment, with its size and capacity then. -/
structure Snapshot where
  getCalls : Nat := 0
  getHits : Nat := 0
  getMisses : Nat := 0
  insertNew : Nat := 0
  insertUpdates : Nat := 0
  evictions : Nat := 0
  eraseCalls : Nat := 0
  eraseFound : Nat := 0
  clears : Nat := 0
  findCalls : Nat := 0
  peekCalls : Nat := 0
  size : Nat := 0
  capacity : Nat := 0
deriving DecidableEq, Repr

/-- Copy the counters, and add what the caller observed. -/
def Counters.snapshot (counters : Counters) (size capacity : Nat) : Snapshot where
  getCalls := counters.getHits + counters.getMisses
  getHits := counters.getHits
  getMisses := counters.getMisses
  insertNew := counters.insertNew
  insertUpdates := counters.insertUpdates
  evictions := counters.evictions
  eraseCalls := counters.eraseCalls
  eraseFound := counters.eraseFound
  clears := counters.clears
  findCalls := counters.findCalls
  peekCalls := counters.peekCalls
  size := size
  capacity := capacity

/-- The part of the `get` calls that hit, and zero before the first call. Both
numbers, which stay below 2 to the power 64, are rounded to the nearest
floating-point number before they are divided. -/
def Snapshot.hitRatio (snapshot : Snapshot) : Float :=
  if snapshot.getCalls = 0 then 0
  else snapshot.getHits.toUInt64.toFloat / snapshot.getCalls.toUInt64.toFloat

end GraphsAndCaches
