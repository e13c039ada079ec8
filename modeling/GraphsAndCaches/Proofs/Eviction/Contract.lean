import GraphsAndCaches.Proofs.Eviction.Store

/-!
# The contract of a store

A cache announces an eviction before it happens, and takes the entry to be announced from
the store. This works because stores keep a contract: they name the entry that a new key
drives out exactly when there is one, an insertion drives out that entry and no other,
and no operation disturbs the order in which the entries of other keys leave.

`Store.Contract` states this of one store, in terms of its answers and of the list of its
entries in order. A store that follows a lineup keeps the contract, because the
operations of a lineup do what the contract demands. As every run of requests leads from
a store that follows a lineup to such a store, the contract holds in every state that a
fresh store can come to.
-/

namespace GraphsAndCaches

variable {σ κ ν : Type} [DecidableEq κ]

namespace Lineup

/-- After an operation on `key` the entries are exactly those of `contents`, and the
entries of other keys that were there before are in the order in which they were. -/
structure Turned (key : κ) (before after : Lineup κ ν) (contents : κ × ν → Prop) : Prop where
  mem_iff : ∀ entry, entry ∈ after ↔ contents entry
  order : (after.without key).Sublist (before.without key)

end Lineup

/-- What a caller may rely on in a store whose entries are `orderOf store`, the one that
leaves last first. -/
structure Store.Contract [Observable σ κ ν] [Store Id σ κ ν] (orderOf : σ → Lineup κ ν)
    (capacity : Nat) (store : σ) : Prop where
  capacity_eq : Observable.capacity store = capacity
  size_le : Observable.size store ≤ capacity
  size_eq : Observable.size store = (orderOf store).length
  distinct : ((orderOf store).map Prod.fst).Nodup
  /-- The contents are what can be read. -/
  peek_iff : ∀ key value, Observable.peek store key = some value ↔ (key, value) ∈ orderOf store
  find_eq : ∀ key, Observable.find store key = (Observable.peek store key).isSome
  /-- An entry is named exactly when the next new key drives one out. -/
  names_iff : (Observable.nextErasure store).isSome = true ↔
    Observable.size store = capacity ∧ 0 < capacity
  /-- The named entry is resident, with its value of that moment. -/
  named_resident : ∀ key value, Observable.nextErasure store = some (key, value) →
    Observable.find store key = true ∧ Observable.peek store key = some value
  /-- The named entry is the one that leaves first. -/
  named_last : ∀ entry, Observable.nextErasure store = some entry →
    (orderOf store).getLast? = some entry
  /-- A new key takes the place of the named entry, if there is one. -/
  insert_new : ∀ key value, Observable.find store key = false → 0 < capacity →
    ∃ next, Id.run (Store.insert store key value) = (none, next) ∧
      Lineup.Turned key (orderOf store) (orderOf next) fun entry =>
        entry = (key, value) ∨ entry ∈ orderOf store ∧ Observable.nextErasure store ≠ some entry
  /-- A new key is refused when there is no capacity at all. -/
  insert_refused : ∀ key value, Observable.find store key = false → capacity = 0 →
    ∃ next, Id.run (Store.insert store key value) = (none, next) ∧ orderOf next = orderOf store
  /-- A resident key gets the new value, and yields the old one. -/
  insert_resident : ∀ key old value, Observable.peek store key = some old →
    ∃ next, Id.run (Store.insert store key value) = (some old, next) ∧
      Lineup.Turned key (orderOf store) (orderOf next) fun entry =>
        entry = (key, value) ∨ entry ∈ orderOf store ∧ entry.1 ≠ key
  /-- An erasure takes away the entry of its key and yields its value. -/
  erase : ∀ key, ∃ next,
    Id.run (Store.erase store key) = (Observable.peek store key, next) ∧
      Lineup.Turned key (orderOf store) (orderOf next) fun entry =>
        entry ∈ orderOf store ∧ entry.1 ≠ key
  /-- A use of a key keeps the contents. -/
  get : ∀ key, ∃ next,
    Id.run (Store.get store key) = (Observable.peek store key, next) ∧
      Lineup.Turned key (orderOf store) (orderOf next) (· ∈ orderOf store)
  /-- Questions keep the whole order. -/
  afterFind : orderOf (Observable.afterFind store) = orderOf store
  afterPeek : orderOf (Observable.afterPeek store) = orderOf store
  clear : orderOf (Id.run (Store.clear store)) = []

/-! ## What operations of lineups do to the contents and to the order -/

namespace Lineup

variable {policy : Policy} {capacity : Nat} {entries : Lineup κ ν} {key : κ} {value : ν}

theorem turned_without (entries : Lineup κ ν) (key : κ) :
    Turned key entries (entries.without key) fun entry => entry ∈ entries ∧ entry.1 ≠ key where
  mem_iff _ := mem_without
  order := by rw [without_without]

theorem turned_used (distinct : (entries.map Prod.fst).Nodup)
    (distinctAfter : ((entries.used policy key).map Prod.fst).Nodup) :
    Turned key entries (entries.used policy key) (· ∈ entries) where
  mem_iff := by
    rintro ⟨other, stored⟩
    rw [← lookup_eq_some_iff distinctAfter, ← lookup_eq_some_iff distinct, lookup_used]
  order := by rw [without_used]

/-- A new key takes the place of the victim. -/
theorem turned_inserted_new (distinct : (entries.map Prod.fst).Nodup)
    (absent : entries.lookup key = none) (positive : 0 < capacity) (value : ν) :
    Turned key entries (entries.inserted policy capacity key value) fun entry =>
      entry = (key, value) ∨ entry ∈ entries ∧ entries.victim capacity ≠ some entry := by
  have added : entries.inserted policy capacity key value =
      (key, value) :: entries.makeRoom capacity := by
    rw [inserted, absent, Option.isSome_none, if_neg Bool.false_ne_true,
      if_neg (Nat.ne_of_gt positive)]
  rw [added]
  refine ⟨fun entry => ?_, ?_⟩
  · rw [List.mem_cons, mem_makeRoom_iff distinct]
  · rw [without_cons_self]
    exact (makeRoom_sublist capacity entries).filter _

/-- A resident key gets the new value. -/
theorem turned_inserted_resident {old : ν} (distinct : (entries.map Prod.fst).Nodup)
    (distinctAfter : ((entries.inserted policy capacity key value).map Prod.fst).Nodup)
    (found : entries.lookup key = some old) :
    Turned key entries (entries.inserted policy capacity key value) fun entry =>
      entry = (key, value) ∨ entry ∈ entries ∧ entry.1 ≠ key := by
  have updated : entries.inserted policy capacity key value =
      (entries.used policy key).written key value := by
    rw [inserted, found, Option.isSome_some, if_pos rfl]
  refine ⟨?_, ?_⟩
  · rintro ⟨other, stored⟩
    rw [← lookup_eq_some_iff distinctAfter, updated, lookup_written, lookup_used, lookup_used,
      ← lookup_eq_some_iff distinct, found, Prod.mk.injEq]
    by_cases same : other = key
    · simp [same, eq_comm]
    · simp [same]
  · rw [updated, without_written, without_used]

end Lineup

/-! ## Stores that follow lineups keep the contract -/

namespace Store.Follows

variable [Observable σ κ ν] {policy : Policy} {capacity : Nat} {holds : σ → Lineup κ ν → Prop}
variable {orderOf : σ → Lineup κ ν} {store : σ} {entries : Lineup κ ν}

/-- A store that follows a lineup keeps the contract with the entries of the lineup. -/
theorem contract [Store Id σ κ ν] (follows : Store.Follows Id policy capacity holds)
    (orderOf_eq : ∀ {store entries}, holds store entries → orderOf store = entries)
    (held : holds store entries) : Store.Contract orderOf capacity store := by
  have shows := follows.observed held
  obtain rfl := orderOf_eq held
  have distinct := shows.distinct
  have named : ∀ entry, Observable.nextErasure store = some entry →
      (orderOf store).getLast? = some entry := by
    intro entry next
    exact Lineup.getLast?_of_victim (shows.nextErasure_eq.symm.trans next)
  refine
    { capacity_eq := shows.capacity_eq
      size_le := shows.size_eq ▸ shows.fits
      size_eq := shows.size_eq
      distinct
      peek_iff := fun key value => by rw [shows.peek_eq, Lineup.lookup_eq_some_iff distinct]
      find_eq := fun key => by rw [shows.find_eq, shows.peek_eq]
      names_iff := by
        rw [shows.nextErasure_eq, shows.size_eq]
        exact Lineup.isSome_victim_iff
      named_resident := ?named_resident
      named_last := named
      insert_new := ?insert_new
      insert_refused := ?insert_refused
      insert_resident := ?insert_resident
      erase := ?erase
      get := ?get
      afterFind := orderOf_eq (follows.afterFind held)
      afterPeek := orderOf_eq (follows.afterPeek held)
      clear := ?clear }
  case named_resident =>
    intro key value next
    have resident : (key, value) ∈ orderOf store := List.mem_of_getLast? (named _ next)
    have found := (Lineup.lookup_eq_some_iff distinct).mpr resident
    rw [shows.find_eq, shows.peek_eq, found]
    exact ⟨rfl, rfl⟩
  case insert_new =>
    intro key value absent positive
    rw [shows.find_eq, Option.isSome_eq_false_iff, Option.isNone_iff_eq_none] at absent
    obtain ⟨next, known, inserted⟩ := follows.insert held key value
    refine ⟨next, by rw [known, absent]; rfl, ?_⟩
    rw [orderOf_eq inserted, shows.nextErasure_eq]
    exact Lineup.turned_inserted_new distinct absent positive value
  case insert_refused =>
    intro key value absent zero
    rw [shows.find_eq, Option.isSome_eq_false_iff, Option.isNone_iff_eq_none] at absent
    obtain ⟨next, known, inserted⟩ := follows.insert held key value
    refine ⟨next, by rw [known, absent]; rfl, ?_⟩
    rw [orderOf_eq inserted, Lineup.inserted_of_capacity_eq_zero zero shows.fits]
  case insert_resident =>
    intro key old value found
    rw [shows.peek_eq] at found
    obtain ⟨next, known, inserted⟩ := follows.insert held key value
    refine ⟨next, by rw [known, found]; rfl, ?_⟩
    have distinctAfter := (follows.observed inserted).distinct
    rw [orderOf_eq inserted]
    exact Lineup.turned_inserted_resident distinct distinctAfter found
  case erase =>
    intro key
    obtain ⟨next, known, erased⟩ := follows.erase held key
    refine ⟨next, by rw [known, shows.peek_eq]; rfl, ?_⟩
    rw [orderOf_eq erased]
    exact Lineup.turned_without _ key
  case get =>
    intro key
    obtain ⟨next, known, used⟩ := follows.get held key
    refine ⟨next, by rw [known, shows.peek_eq]; rfl, ?_⟩
    have distinctAfter := (follows.observed used).distinct
    rw [orderOf_eq used]
    exact Lineup.turned_used distinct distinctAfter
  case clear =>
    obtain ⟨next, known, cleared⟩ := follows.clear held
    rw [known]
    exact orderOf_eq cleared

variable {m : Type → Type} [Monad m] [LawfulMonad m] [Store m σ κ ν]

/-- A request to a store that follows a lineup is answered as the lineup answers it. -/
theorem perform (follows : Store.Follows m policy capacity holds) (held : holds store entries)
    (request : Request κ ν) :
    ∃ next, (Store.perform store request : m (Reply κ ν × σ)) =
        pure ((entries.answer policy capacity (.request request)).1, next) ∧
      holds next (entries.answer policy capacity (.request request)).2 := by
  have shows := follows.observed held
  cases request with
  | insert key value =>
      obtain ⟨next, known, inserted⟩ := follows.insert held key value
      exact ⟨next, by rw [Store.perform, known, pure_bind]; rfl, inserted⟩
  | get key =>
      obtain ⟨next, known, used⟩ := follows.get held key
      exact ⟨next, by rw [Store.perform, known, pure_bind]; rfl, used⟩
  | erase key =>
      obtain ⟨next, known, erased⟩ := follows.erase held key
      exact ⟨next, by rw [Store.perform, known, pure_bind]; rfl, erased⟩
  | clear =>
      obtain ⟨next, known, cleared⟩ := follows.clear held
      exact ⟨next, by rw [Store.perform, known, pure_bind]; rfl, cleared⟩
  | peek key =>
      exact ⟨_, by rw [Store.perform, shows.peek_eq]; rfl, follows.afterPeek held⟩
  | find key =>
      exact ⟨_, by rw [Store.perform, shows.find_eq]; rfl, follows.afterFind held⟩
  | nextErasure => exact ⟨store, by rw [Store.perform, shows.nextErasure_eq]; rfl, held⟩
  | size => exact ⟨store, by rw [Store.perform, shows.size_eq]; rfl, held⟩
  | capacity => exact ⟨store, by rw [Store.perform, shows.capacity_eq]; rfl, held⟩
  | isEmpty => exact ⟨store, by rw [Store.perform, shows.isEmpty_eq]; rfl, held⟩
  | isFull => exact ⟨store, by rw [Store.perform, shows.isFull_eq]; rfl, held⟩

/-- A run of requests is answered as the lineup answers it, request by request. -/
theorem run (follows : Store.Follows m policy capacity holds) (held : holds store entries)
    (requests : List (Request κ ν)) :
    ∃ next, (Store.run store requests : m (List (Reply κ ν) × σ)) =
        pure ((entries.answers policy capacity (requests.map .request)).1, next) ∧
      holds next (entries.answers policy capacity (requests.map .request)).2 := by
  induction requests generalizing store entries with
  | nil => exact ⟨store, rfl, held⟩
  | cons request rest inductionHypothesis =>
      obtain ⟨middle, first, heldMiddle⟩ := follows.perform held request
      obtain ⟨next, others, heldNext⟩ := inductionHypothesis heldMiddle
      refine ⟨next, ?_, heldNext⟩
      rw [Store.run, first, pure_bind]
      simp only [others, pure_bind]
      rfl

/-- In every state that a run of requests leads to, the store keeps the contract. -/
theorem contract_run [Store Id σ κ ν] (follows : Store.Follows Id policy capacity holds)
    (orderOf_eq : ∀ {store entries}, holds store entries → orderOf store = entries)
    (held : holds store entries) (requests : List (Request κ ν)) :
    Store.Contract orderOf capacity (Id.run (Store.run store requests)).2 := by
  obtain ⟨next, outcome, heldNext⟩ := follows.run held requests
  rw [outcome]
  exact follows.contract orderOf_eq heldNext

end Store.Follows

variable [Hashable κ]

/-- Whatever was asked of a fresh bounded store of either policy, or of a fresh store whose
policy was chosen at run time, and whatever its capacity: it keeps the contract. -/
theorem Store.fresh_keeps_contract (policy : Policy) (capacity : Nat)
    (requests : List (Request κ ν)) :
    Store.Contract BoundedStore.toList capacity
        (Id.run (Store.run (.ofCapacity capacity : BoundedStore policy κ ν) requests)).2 ∧
      Store.Contract PolicyStore.toList capacity
        (Id.run (Store.run (.ofCapacity policy capacity : PolicyStore κ ν) requests)).2 :=
  ⟨(BoundedStore.follows policy capacity).contract_run (fun held => held.toList_eq)
      (BoundedStore.holds_ofCapacity capacity) requests,
    (PolicyStore.follows policy capacity).contract_run (fun held => held.toList_eq)
      (PolicyStore.holds_ofCapacity policy capacity) requests⟩

end GraphsAndCaches
