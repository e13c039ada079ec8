import GraphsAndCaches.Eviction.EvictingCache
import GraphsAndCaches.Eviction.PolicyStore

/-!
# Cache plans

A plan fixes what all policies share, the capacity. From it a bare store or an
evicting cache is made for a policy that may be chosen later. Each comes in two
forms: one that honours a capacity of zero, and one that rejects it.
-/

namespace GraphsAndCaches

/-- The parameters of stores and caches to be made. -/
structure CachePlan where
  capacity : Nat
deriving DecidableEq, Repr

namespace CachePlan

variable {ω κ ν : Type} [DecidableEq κ] [Hashable κ]

/-- A plan is sound when its capacity is positive. -/
def validate (plan : CachePlan) : Except ConfigurationError Unit :=
  if plan.capacity = 0 then throw (.zeroCapacity "cache") else pure ()

/-- An empty store. With a capacity of zero it never holds anything. -/
def store (plan : CachePlan) (policy : Policy) : PolicyStore κ ν :=
  .ofCapacity policy plan.capacity

/-- An empty store, unless the plan is unsound. -/
def checkedStore (plan : CachePlan) (policy : Policy) :
    Except ConfigurationError (PolicyStore κ ν) := do
  plan.validate
  return plan.store policy

/-- An evicting cache over an empty store. -/
def cache (plan : CachePlan) (policy : Policy) (callbacks : Callbacks ω κ ν) :
    EvictingCache ω (PolicyStore κ ν) κ ν :=
  { store := plan.store policy, callbacks }

/-- An evicting cache over an empty store, unless the plan is unsound. -/
def checkedCache (plan : CachePlan) (policy : Policy) (callbacks : Callbacks ω κ ν) :
    Except ConfigurationError (EvictingCache ω (PolicyStore κ ν) κ ν) := do
  plan.validate
  return plan.cache policy callbacks

end CachePlan

end GraphsAndCaches
