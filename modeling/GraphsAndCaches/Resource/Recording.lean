import GraphsAndCaches.Resource.ResourceCache

/-!
# Recording the handlers of a resource cache

Any handlers can be put under record: each call is carried out as before, and is
then written down with what it was given and what it answered. The record tells
which values were made and which were unmade, under which keys and in which
order, while the handlers themselves do not notice it.
-/

namespace GraphsAndCaches

/-- One call of a handler, with its answer. -/
inductive HandlerCall (κ τ : Type) where
  | create (key : κ) (made : Option τ)
  | destroy (key : κ) (value : τ) (verdict : Bool)
deriving DecidableEq, Repr

/-- The state of handlers under record: their own, and the calls so far. -/
structure Supervised (ω κ τ : Type) where
  outside : ω
  calls : Array (HandlerCall κ τ) := #[]
deriving Repr

/-- The same handlers under record. -/
def Handlers.recording {ω κ τ : Type} (handlers : Handlers ω κ τ) :
    Handlers (Supervised ω κ τ) κ τ where
  create key := fun { outside, calls } =>
    let (made, outside) := (handlers.create key).run outside
    (made, { outside, calls := calls.push (.create key made) })
  destroy key value := fun { outside, calls } =>
    let (verdict, outside) := (handlers.destroy key value).run outside
    (verdict, { outside, calls := calls.push (.destroy key value verdict) })

end GraphsAndCaches
