import GraphsAndCaches.Proofs.Eviction.EvictingCache

/-!
# What a cache asks of its store

An insertion into a cache first asks the store whether the key is there and at last looks
at what is stored. Without capacity it asks nothing at all. Every other request is handed
on as it is. When the store is a plain value, it ends up as if it had received these
requests on its own: whatever the callbacks do is lost on it.
-/

namespace GraphsAndCaches

variable {ω σ κ ν : Type}

/-- The requests to a store behind a request to the cache over it. Questions that the store
does not note are left out. -/
def Request.behind (capacity : Nat) : Request κ ν → List (Request κ ν)
  | .insert key value => if capacity = 0 then [] else [.find key, .insert key value, .peek key]
  | request => [request]

variable [Observable σ κ ν]

/-- Operations of the store have no effect in the monad of its caller. -/
structure Store.Plain (m : Type → Type) (σ : Type) [Monad m] [Observable σ κ ν]
    [Store Id σ κ ν] [Store m σ κ ν] : Prop where
  get : ∀ (store : σ) (key : κ),
    (Store.get store key : m (Option ν × σ)) = pure (Id.run (Store.get store key))
  insert : ∀ (store : σ) (key : κ) (value : ν),
    (Store.insert store key value : m (Option ν × σ)) = pure (Id.run (Store.insert store key value))
  erase : ∀ (store : σ) (key : κ),
    (Store.erase store key : m (Option ν × σ)) = pure (Id.run (Store.erase store key))
  clear : ∀ store : σ, (Store.clear store : m σ) = pure (Id.run (Store.clear store))

namespace EvictingCache

variable {cache : EvictingCache ω σ κ ν}

/-- An arrival is announced or not, and this is the answer. The store notes the look at it in
any case. -/
theorem fst_run_announceArrival (key : κ) (around : Surroundings ω) :
    ((cache.announceArrival key).run around).1 =
      ((Observable.peek cache.store key).isSome,
        { cache with store := Observable.afterPeek cache.store }) := by
  rw [announceArrival, peek]
  cases Observable.peek cache.store key <;> rfl

variable [Store Id σ κ ν] [Store (StateM ω) σ κ ν] (plain : Store.Plain (StateM ω) σ)
include plain

theorem snd_run_insert (positive : 0 < cache.capacity) (key : κ) (value : ν)
    (around : Surroundings ω) :
    ((cache.insert key value).run around).1.2 =
      { cache with
        store := Observable.afterPeek
          (Id.run (Store.insert (Observable.afterFind cache.store) key value)).2 } := by
  -- What is announced between the question and the change is seen in the surroundings only.
  have writes : ∀ around : Surroundings ω,
      ((write { cache with store := Observable.afterFind cache.store } key value).run
        around).1.2 =
        { cache with
          store := Observable.afterPeek
            (Id.run (Store.insert (Observable.afterFind cache.store) key value)).2 } := by
    intro around
    rw [write, Act.run_bind, run_changeStore (plain.insert ..)]
    exact congrArg Prod.snd (fst_run_announceArrival key _)
  rw [insert_of_capacity_ne_zero (Nat.ne_of_gt positive)]
  cases Observable.find cache.store key with
  | true => exact writes around
  | false => exact writes _

/-- A request to a cache leaves the store that the requests behind it leave, and the cache
is otherwise what it was. -/
theorem snd_run_perform (cache : EvictingCache ω σ κ ν) (request : Request κ ν)
    (around : Surroundings ω) :
    ((cache.perform request).run around).1.2 =
      { cache with
        store := (Id.run (Store.run cache.store (request.behind cache.capacity))).2 } := by
  cases request with
  | insert key value =>
      rw [perform, Act.run_bind, Request.behind]
      by_cases zero : cache.capacity = 0
      · rw [insert, if_pos zero, if_pos zero]
        rfl
      · rw [if_neg zero]
        exact snd_run_insert plain (Nat.pos_of_ne_zero zero) key value around
  | get key =>
      rw [perform, Act.run_bind, get, run_changeStore (plain.get ..)]
      rfl
  | erase key =>
      have erased := plain.erase cache.store key
      change _ = { cache with store := (Id.run (Store.erase cache.store key)).2 }
      generalize Id.run (Store.erase cache.store key) = outcome at erased ⊢
      obtain ⟨removed, next⟩ := outcome
      rw [perform, Act.run_bind, erase, Act.run_bind, run_changeStore erased]
      cases removed <;> rfl
  | clear =>
      rw [perform, Act.run_bind, clear, changeStore, plain.clear]
      rfl
  | _ => rfl

end EvictingCache

variable [DecidableEq κ] [Hashable κ] {m : Type → Type} [Monad m]

theorem BoundedStore.plain (policy : Policy) : Store.Plain m (BoundedStore policy κ ν) :=
  ⟨fun _ _ => rfl, fun _ _ _ => rfl, fun _ _ => rfl, fun _ => rfl⟩

theorem PolicyStore.plain : Store.Plain m (PolicyStore κ ν) :=
  ⟨fun _ _ => rfl, fun _ _ _ => rfl, fun _ _ => rfl, fun _ => rfl⟩

end GraphsAndCaches
