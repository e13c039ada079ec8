import GraphsAndCaches.Errors

/-!
# Replies of keyed containers

Stores, caches and resource caches answer requests in the same few ways. One
type of replies for all of them lets the runs of two containers be compared
request by request.
-/

namespace GraphsAndCaches

/-- What a container with keys `κ` and values `ν` can answer. -/
inductive Reply (κ ν : Type) where
  | done
  | flag (truth : Bool)
  | count (number : Nat)
  | rank (position : Option Nat)
  | value (value : Option ν)
  | entry (entry : Option (κ × ν))
  | entries (entries : List (κ × ν))
  | verdict (defect : Option InvariantViolation)
deriving DecidableEq, Repr

end GraphsAndCaches
