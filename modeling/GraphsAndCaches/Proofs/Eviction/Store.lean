import GraphsAndCaches.Eviction.PolicyStore
import GraphsAndCaches.Proofs.Eviction.BoundedStore

/-!
# Stores that follow lineups

What a cache relies on in its store is that the store answers as a lineup does and
changes as a lineup does. Both bounded stores and stores of a policy chosen at run time
do so, in every monad, since they are plain values.
-/

namespace GraphsAndCaches

variable {σ κ ν : Type} [DecidableEq κ]

/-- The questions to a store are answered from these entries, which have distinct keys
and fit into the capacity. -/
structure Observable.Shows [Observable σ κ ν] (store : σ) (capacity : Nat)
    (entries : Lineup κ ν) : Prop where
  distinct : (entries.map Prod.fst).Nodup
  fits : entries.length ≤ capacity
  capacity_eq : Observable.capacity store = capacity
  size_eq : Observable.size store = entries.length
  isEmpty_eq : Observable.isEmpty store = entries.isEmpty
  isFull_eq : Observable.isFull store = (entries.length == capacity)
  find_eq : ∀ key, Observable.find store key = (entries.lookup key).isSome
  peek_eq : ∀ key, Observable.peek store key = entries.lookup key
  nextErasure_eq : Observable.nextErasure store = entries.victim capacity

/-- Stores that hold entries show them, and their operations yield what the lineup
yields and leave a store that holds the resulting entries. -/
structure Store.Follows (m : Type → Type) [Monad m] [Observable σ κ ν] [Store m σ κ ν]
    (policy : Policy) (capacity : Nat) (holds : σ → Lineup κ ν → Prop) : Prop where
  observed : ∀ {store entries}, holds store entries → Observable.Shows store capacity entries
  afterFind : ∀ {store entries}, holds store entries →
    holds (Observable.afterFind store) entries
  afterPeek : ∀ {store entries}, holds store entries →
    holds (Observable.afterPeek store) entries
  get : ∀ {store entries}, holds store entries → ∀ key, ∃ next,
    (Store.get store key : m (Option ν × σ)) = pure (entries.lookup key, next) ∧
      holds next (entries.used policy key)
  insert : ∀ {store entries}, holds store entries → ∀ key value, ∃ next,
    (Store.insert store key value : m (Option ν × σ)) = pure (entries.lookup key, next) ∧
      holds next (entries.inserted policy capacity key value)
  erase : ∀ {store entries}, holds store entries → ∀ key, ∃ next,
    (Store.erase store key : m (Option ν × σ)) = pure (entries.lookup key, next) ∧
      holds next (entries.without key)
  clear : ∀ {store entries}, holds store entries → ∃ next,
    (Store.clear store : m σ) = pure next ∧ holds next []

variable [Hashable κ] {m : Type → Type} [Monad m]

/-- An operation whose answer is known is the answer with what is left of the store. -/
theorem pure_eq_of_fst_eq {α β : Type} {outcome : α × β} {answer : α}
    (known : outcome.1 = answer) : (pure outcome : m (α × β)) = pure (answer, outcome.2) := by
  rw [← known]

namespace BoundedStore

variable {policy : Policy} {store : BoundedStore policy κ ν} {capacity : Nat}
  {entries : Lineup κ ν}

theorem Holds.observed (holds : Holds store capacity entries) :
    Observable.Shows store capacity entries where
  distinct := holds.roster.distinct
  fits := holds.fits
  capacity_eq := holds.capacity_eq
  size_eq := holds.size_eq
  isEmpty_eq := holds.isEmpty_eq
  isFull_eq := holds.isFull_eq
  find_eq := holds.contains_eq
  peek_eq := holds.read_eq
  nextErasure_eq := holds.nextErasure_eq

theorem follows (policy : Policy) (capacity : Nat) :
    Store.Follows m policy capacity
      fun (store : BoundedStore policy κ ν) entries => store.Holds capacity entries where
  observed holds := holds.observed
  afterFind holds := holds.count .find
  afterPeek holds := holds.count .peek
  get holds key := by
    obtain ⟨value, used⟩ := holds.get key
    exact ⟨_, pure_eq_of_fst_eq value, used⟩
  insert holds key value := by
    obtain ⟨old, inserted⟩ := holds.insert key value
    exact ⟨_, pure_eq_of_fst_eq old, inserted⟩
  erase holds key := by
    obtain ⟨value, erased⟩ := holds.erase key
    exact ⟨_, pure_eq_of_fst_eq value, erased⟩
  clear holds := ⟨_, rfl, holds.clear⟩

end BoundedStore

namespace PolicyStore

/-- The policy is this one, and the bounded store holds these entries. -/
def Holds (policy : Policy) (capacity : Nat) (whole : PolicyStore κ ν)
    (entries : Lineup κ ν) : Prop :=
  ∃ store : BoundedStore policy κ ν, whole = { policy, store } ∧ store.Holds capacity entries

theorem holds_ofCapacity (policy : Policy) (capacity : Nat) :
    Holds policy capacity (ofCapacity policy capacity : PolicyStore κ ν) [] :=
  ⟨.ofCapacity capacity, rfl, BoundedStore.holds_ofCapacity capacity⟩

theorem Holds.toList_eq {policy : Policy} {capacity : Nat} {whole : PolicyStore κ ν}
    {entries : Lineup κ ν} (holds : Holds policy capacity whole entries) :
    whole.toList = entries := by
  obtain ⟨store, rfl, inside⟩ := holds
  exact inside.toList_eq

theorem follows (policy : Policy) (capacity : Nat) :
    Store.Follows m policy capacity (Holds policy capacity : PolicyStore κ ν → _ → Prop) where
  observed := by
    rintro whole entries ⟨store, rfl, holds⟩
    exact { holds.observed with }
  afterFind := by
    rintro whole entries ⟨store, rfl, holds⟩
    exact ⟨_, rfl, holds.count .find⟩
  afterPeek := by
    rintro whole entries ⟨store, rfl, holds⟩
    exact ⟨_, rfl, holds.count .peek⟩
  get := by
    rintro whole entries ⟨store, rfl, holds⟩ key
    obtain ⟨value, used⟩ := holds.get key
    exact ⟨_, pure_eq_of_fst_eq value, _, rfl, used⟩
  insert := by
    rintro whole entries ⟨store, rfl, holds⟩ key value
    obtain ⟨old, inserted⟩ := holds.insert key value
    exact ⟨_, pure_eq_of_fst_eq old, _, rfl, inserted⟩
  erase := by
    rintro whole entries ⟨store, rfl, holds⟩ key
    obtain ⟨value, erased⟩ := holds.erase key
    exact ⟨_, pure_eq_of_fst_eq value, _, rfl, erased⟩
  clear := by
    rintro whole entries ⟨store, rfl, holds⟩
    exact ⟨_, rfl, _, rfl, holds.clear⟩

end PolicyStore

end GraphsAndCaches
