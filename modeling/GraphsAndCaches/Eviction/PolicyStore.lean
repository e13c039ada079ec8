import GraphsAndCaches.Eviction.BoundedStore

/-!
# Stores of a policy chosen at run time

A policy store is a bounded store together with the policy that it follows. Its
answers are those of the bounded store: every operation is handed on, and the
policy never changes.
-/

namespace GraphsAndCaches

variable {κ ν : Type} [DecidableEq κ] [Hashable κ]

/-- A bounded store and its policy. -/
structure PolicyStore (κ ν : Type) [DecidableEq κ] [Hashable κ] where
  policy : Policy
  store : BoundedStore policy κ ν

namespace PolicyStore

/-- The empty store of a given policy and capacity. -/
def ofCapacity (policy : Policy) (capacity : Nat) : PolicyStore κ ν :=
  { policy, store := .ofCapacity capacity }

/-- Hand an operation on to the bounded store. The operation is one that stores of
every policy have. -/
def handOn {α : Type} (whole : PolicyStore κ ν)
    (operation : {policy : Policy} → BoundedStore policy κ ν → α × BoundedStore policy κ ν) :
    α × PolicyStore κ ν :=
  match whole with
  | { policy, store } =>
      let (answer, store) := operation store
      (answer, { policy, store })

/-- The counters, with the present size and the capacity. -/
def snapshot (whole : PolicyStore κ ν) : Snapshot := whole.store.snapshot

/-- The entries, the newest one first. -/
def toList (whole : PolicyStore κ ν) : List (κ × ν) := whole.store.toList

instance : Observable (PolicyStore κ ν) κ ν where
  capacity whole := whole.store.capacity
  size whole := whole.store.size
  isEmpty whole := whole.store.isEmpty
  isFull whole := whole.store.isFull
  find whole := whole.store.contains
  peek whole := whole.store.read
  nextErasure whole := whole.store.nextErasure
  afterFind whole := { whole with store := Observable.afterFind whole.store }
  afterPeek whole := { whole with store := Observable.afterPeek whole.store }

instance {m : Type → Type} [Monad m] : Store m (PolicyStore κ ν) κ ν where
  get whole key := pure (whole.handOn (·.get key))
  insert whole key value := pure (whole.handOn (·.insert key value))
  erase whole key := pure (whole.handOn (·.erase key))
  clear whole := pure { whole with store := whole.store.clear }

/-- Carry out one command. -/
def perform (whole : PolicyStore κ ν) (command : BoundedStore.Command κ ν) :
    Reply κ ν × PolicyStore κ ν :=
  whole.handOn (·.perform command)

end PolicyStore

end GraphsAndCaches
