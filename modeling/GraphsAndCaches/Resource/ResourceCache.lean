import GraphsAndCaches.Diagnostic
import GraphsAndCaches.Reply
import Std.Data.TreeMap

/-!
# Resource caches

A resource cache makes values on demand and unmakes them when they leave. Both
are done by handlers, whose state belongs to the surroundings. Creation may fail,
and then nothing is stored. Destruction receives the value and reports whether it
succeeded; the value is gone either way.

Every value that was created is destroyed exactly once: when its key is erased,
when it is replaced by force, or when the cache is emptied. `release` empties the
cache at the end of its life. Entries are kept and destroyed in the order of
their keys.
-/

namespace GraphsAndCaches

/-- The code that makes and unmakes values of type `τ`. Its state is `ω`. -/
structure Handlers (ω κ τ : Type) where
  create : κ → StateM ω (Option τ)
  destroy : κ → τ → StateM ω Bool

/-- Values by key, and the handlers that account for them. -/
structure ResourceCache (ω κ τ : Type) [Ord κ] where
  handlers : Handlers ω κ τ
  entries : Std.TreeMap κ τ := {}

namespace ResourceCache

variable {ω κ τ : Type} [Ord κ]

/-- A cache without values. -/
def ofHandlers (handlers : Handlers ω κ τ) : ResourceCache ω κ τ := { handlers }

def size (cache : ResourceCache ω κ τ) : Nat := cache.entries.size

def isEmpty (cache : ResourceCache ω κ τ) : Bool := cache.entries.isEmpty

/-- Whether a key has a value. Nothing is created to find out. -/
def contains (cache : ResourceCache ω κ τ) (key : κ) : Bool := cache.entries.contains key

/-- The keys in their order. -/
def keys (cache : ResourceCache ω κ τ) : List κ := cache.entries.keys

/-- The entries in the order of their keys. -/
def toList (cache : ResourceCache ω κ τ) : List (κ × τ) := cache.entries.toList

/-- The cache in one line, with its keys in order. -/
def describe [ToString κ] (cache : ResourceCache ω κ τ) : String :=
  "ResourceCache \x7b keys: [" ++ ", ".intercalate (cache.keys.map toString) ++ "], .. \x7d"

/-- The entry of a key: the key under which it is kept, which may be another one of
the same place in the order, and its value. -/
def find? (cache : ResourceCache ω κ τ) (key : κ) : Option (κ × τ) := do
  let kept ← cache.entries.getKey? key
  let value ← cache.entries[key]?
  return (kept, value)

/-- Destroy the value of a key and remove it. The handler receives the key that was
kept with the value. The answer is its verdict, or `false` when there was nothing to
destroy. -/
def erase (cache : ResourceCache ω κ τ) (key : κ) : Act ω (Bool × ResourceCache ω κ τ) :=
  match cache.find? key with
  | none => return (false, cache)
  | some (kept, value) => do
      let destroyed ← Act.call (cache.handlers.destroy kept value)
      unless destroyed do Act.record .destructionFailed
      return (destroyed, { cache with entries := cache.entries.erase key })

/-- Create a value for a key that has none, and tell whether this succeeded. A
failure is recorded with the number of values held at that moment. -/
def create (cache : ResourceCache ω κ τ) (key : κ) : Act ω (Bool × ResourceCache ω κ τ) := do
  match ← Act.call (cache.handlers.create key) with
  | some value => return (true, { cache with entries := cache.entries.insert key value })
  | none =>
      Act.record (.creationFailed cache.size)
      return (false, cache)

/-- Create a value for a key. A key that has one is left alone, unless `force`
is set: then its value is destroyed before the new one is created. -/
def put (cache : ResourceCache ω κ τ) (key : κ) (force : Bool) :
    Act ω (Bool × ResourceCache ω κ τ) :=
  if cache.contains key then
    if force then do
      let (_, cache) ← cache.erase key
      cache.create key
    else return (false, cache)
  else cache.create key

/-- The value of a key, which is created when there is none. -/
def get (cache : ResourceCache ω κ τ) (key : κ) :
    Act ω (Option τ × ResourceCache ω κ τ) :=
  if cache.contains key then return (cache.entries[key]?, cache)
  else do
    let (_, cache) ← cache.put key false
    return (cache.entries[key]?, cache)

/-- Destroy values one after another, and count the failures among them. -/
def destroyAll (handlers : Handlers ω κ τ) : List (κ × τ) → StateM ω Nat
  | [] => return 0
  | (key, value) :: rest => do
      let destroyed ← handlers.destroy key value
      let failures ← destroyAll handlers rest
      return if destroyed then failures else failures + 1

/-- Destroy every value in the order of the keys. Failures do not stop this; they
are recorded together at the end. -/
def clear (cache : ResourceCache ω κ τ) : Act ω (ResourceCache ω κ τ) := do
  let failures ← Act.call (destroyAll cache.handlers cache.toList)
  unless failures = 0 do Act.record (.clearingFailed failures)
  return { cache with entries := {} }

/-- End the life of the cache: every value that is left is destroyed. -/
def release (cache : ResourceCache ω κ τ) : Act ω Unit := do
  let _ ← cache.clear

/-- What can be asked of a resource cache. -/
inductive Request (κ : Type) where
  | put (key : κ) (force : Bool)
  | get (key : κ)
  | contains (key : κ)
  | size
  | isEmpty
  | erase (key : κ)
  | clear
deriving DecidableEq, Repr

/-- Carry out one request. -/
def perform (cache : ResourceCache ω κ τ) :
    Request κ → Act ω (Reply κ τ × ResourceCache ω κ τ)
  | .put key force => do
      let (stored, cache) ← cache.put key force
      return (.flag stored, cache)
  | .get key => do
      let (value, cache) ← cache.get key
      return (.value value, cache)
  | .contains key => return (.flag (cache.contains key), cache)
  | .size => return (.count cache.size, cache)
  | .isEmpty => return (.flag cache.isEmpty, cache)
  | .erase key => do
      let (destroyed, cache) ← cache.erase key
      return (.flag destroyed, cache)
  | .clear => do
      let cache ← cache.clear
      return (.done, cache)

/-- Carry out requests in order, and yield their replies in that order. -/
def run (cache : ResourceCache ω κ τ) :
    List (Request κ) → Act ω (List (Reply κ τ) × ResourceCache ω κ τ)
  | [] => return ([], cache)
  | request :: rest => do
      let (reply, cache) ← cache.perform request
      let (replies, cache) ← cache.run rest
      return (reply :: replies, cache)

end ResourceCache

end GraphsAndCaches
