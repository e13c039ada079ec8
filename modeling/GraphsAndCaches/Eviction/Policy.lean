/-!
# Eviction policies

A policy decides which entry of a full store leaves for a newcomer. Both
policies drive out the last entry of an order and put newcomers at its front.
They differ in one point: whether the use of an entry moves it to the front.
-/

namespace GraphsAndCaches

/-- The rules by which entries leave. -/
inductive Policy where
  /-- The entry that was used least recently leaves first. -/
  | lru
  /-- The entry that arrived first leaves first, however often it was used. -/
  | fifo
deriving DecidableEq, Repr

/-- Where nothing else is asked for, recency decides. -/
instance : Inhabited Policy := ⟨.lru⟩

namespace Policy

/-- Whether a use of an entry moves it to the front of the order. -/
def promotesOnUse : Policy → Bool
  | .lru => true
  | .fifo => false

/-- The short name of a policy in lower case. -/
def name : Policy → String
  | .lru => "lru"
  | .fifo => "fifo"

/-- The short name of a policy in upper case. -/
def label : Policy → String
  | .lru => "LRU"
  | .fifo => "FIFO"

end Policy

end GraphsAndCaches
