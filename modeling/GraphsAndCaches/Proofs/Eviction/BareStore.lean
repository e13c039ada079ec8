import GraphsAndCaches.Proofs.Eviction.Accounts

/-!
# A cache beside its bare store

The same requests are made of a cache and of a store like the one inside it. The cache
questions its store before and after it inserts, calls back in between, and refuses
insertions when there is no capacity; the bare store does nothing of the sort. Still both
reply alike, up to the flags with which a cache answers insertions and erasures, and both
stores end up with the same entries in the same order. Their counters differ by the two
questions behind each insertion and by nothing else.

Neither the callbacks nor the state of the code behind them is restricted, so nothing that
they do reaches the store.
-/

namespace GraphsAndCaches

variable {ω σ κ ν : Type}

/-- What a cache replies to a request where its store on its own replies this: whether an
insertion was accepted, and whether an erasure found its key. -/
def Request.throughCache (capacity : Nat) : Request κ ν → Reply κ ν → Reply κ ν
  | .insert .., _ => .flag (decide (0 < capacity))
  | .erase _, .value removed => .flag removed.isSome
  | _, reply => reply

/-- How often a cache asks its store for a key, and likewise for a value, on its own account:
once in every insertion that is not refused. -/
def Request.looks (capacity : Nat) (requests : List (Request κ ν)) : Nat :=
  if capacity = 0 then 0 else requests.countP (· matches .insert ..)

/-- The counters of a store that was asked so many times more for keys and for values. -/
def Counters.withLooks (counters : Counters) (finds peeks : Nat) : Counters :=
  { counters with
    findCalls := counters.findCalls + finds
    peekCalls := counters.peekCalls + peeks }

/-- The outcome of a run of requests to a cache, its replies and its store, beside the
outcome of the same run on the bare store. The former store was asked `looks` times more for
keys and as often more for values. -/
structure Store.Mirrored [Observable σ κ ν] (orderOf : σ → Lineup κ ν)
    (countersOf : σ → Counters) (capacity looks : Nat) (requests : List (Request κ ν))
    (cached bare : List (Reply κ ν) × σ) : Prop where
  answered : bare.1.length = requests.length
  replies : cached.1 = List.zipWith (Request.throughCache capacity) requests bare.1
  size_eq : Observable.size cached.2 = Observable.size bare.2
  nextErasure_eq : Observable.nextErasure cached.2 = Observable.nextErasure bare.2
  /-- The same entries are there, and they leave in the same order. -/
  order : orderOf cached.2 = orderOf bare.2
  counters : countersOf cached.2 = (countersOf bare.2).withLooks looks looks

theorem Request.looks_of_not_insert (capacity : Nat) {request : Request κ ν}
    (other : (request matches .insert ..) = false) : looks capacity [request] = 0 := by
  rw [looks, List.countP_singleton, other]
  exact ite_self 0

theorem Request.looks_cons (capacity : Nat) (request : Request κ ν) (rest : List (Request κ ν)) :
    looks capacity (request :: rest) = looks capacity [request] + looks capacity rest := by
  simp only [looks]
  split
  · rfl
  · change List.countP _ ([request] ++ rest) = _
    exact List.countP_append

namespace Counters

/-- Events are counted on top of more questions as they are without. -/
theorem record_withLooks (counters : Counters) (finds peeks : Nat) (event : Event) :
    (counters.withLooks finds peeks).record event =
      (counters.record event).withLooks finds peeks := by
  cases event with
  | find => simp only [withLooks, record, Nat.add_right_comm]
  | peek => simp only [withLooks, record, Nat.add_right_comm]
  | _ => rfl

theorem recordAll_withLooks (counters : Counters) (finds peeks : Nat) (events : List Event) :
    (counters.withLooks finds peeks).recordAll events =
      (counters.recordAll events).withLooks finds peeks := by
  induction events generalizing counters with
  | nil => rfl
  | cons event rest inductionHypothesis =>
      refine Eq.trans ?_ (inductionHypothesis (counters.record event))
      exact congrArg (recordAll · rest) (record_withLooks counters finds peeks event)

theorem withLooks_withLooks (counters : Counters) (finds peeks moreFinds morePeeks : Nat) :
    (counters.withLooks finds peeks).withLooks moreFinds morePeeks =
      counters.withLooks (finds + moreFinds) (peeks + morePeeks) := by
  simp only [withLooks, Nat.add_assoc]

end Counters

variable [DecidableEq κ]

namespace Lineup

variable {entries : Lineup κ ν} {capacity : Nat}

/-- The replies of a cache are those of its store, as they come through. -/
theorem cacheReply_eq (policy : Policy) (capacity : Nat) (entries : Lineup κ ν)
    (request : Request κ ν) :
    entries.cacheReply policy capacity request =
      request.throughCache capacity (entries.answer policy capacity (.request request)).1 := by
  cases request with
  | insert key value => simp only [cacheReply, Request.throughCache, Nat.pos_iff_ne_zero]
  | _ => rfl

/-- What is counted behind a request to a cache is what the request itself counts, and the
questions that the cache adds. -/
theorem recordAll_tally_behind (policy : Policy) (fits : entries.length ≤ capacity)
    (counters : Counters) (request : Request κ ν) :
    counters.recordAll (entries.tally policy capacity (request.behind capacity)) =
      (counters.recordAll (entries.events capacity request)).withLooks
        (Request.looks capacity [request]) (Request.looks capacity [request]) := by
  cases request with
  | insert key value =>
      by_cases zero : capacity = 0
      · have nothing : entries = [] :=
          List.eq_nil_of_length_eq_zero (Nat.le_zero.mp (zero ▸ fits))
        subst zero nothing
        rfl
      · have one : Request.looks capacity [Request.insert key value] = 1 := if_neg zero
        rw [tally_behind_insert policy (Nat.pos_of_ne_zero zero), one, ← List.cons_append,
          Counters.recordAll_append]
        change ((counters.withLooks 1 0).recordAll _).withLooks 0 1 = _
        rw [Counters.recordAll_withLooks, Counters.withLooks_withLooks]
  | _ =>
      rw [Request.looks_of_not_insert capacity rfl]
      simp only [Request.behind, tally, List.append_nil]
      rfl

end Lineup

namespace EvictingCache

variable [Observable σ κ ν] [Store (StateM ω) σ κ ν] [Store Id σ κ ν]
variable {policy : Policy} {capacity : Nat} {holds : σ → Lineup κ ν → Prop}
variable {orderOf : σ → Lineup κ ν} {countersOf : σ → Counters}

/-- Two stores with the same entries, one in a cache and one bare, take the same requests.

Induct on the requests. Each leaves the same entries in both stores, and the counters of the
store in the cache stay ahead by the questions that the cache has asked so far. -/
theorem mirrored_run (follows : Store.Follows (StateM ω) policy capacity holds)
    (alone : Store.Follows Id policy capacity holds) (plain : Store.Plain (StateM ω) σ)
    (tallies : Store.Tallies capacity holds countersOf)
    (orderOf_eq : ∀ {store entries}, holds store entries → orderOf store = entries)
    (requests : List (Request κ ν)) {cache : EvictingCache ω σ κ ν} {bare : σ}
    {entries : Lineup κ ν} (held : holds cache.store entries) (heldBare : holds bare entries)
    {looks : Nat} (ahead : countersOf cache.store = (countersOf bare).withLooks looks looks)
    (around : Surroundings ω) :
    let outcome := ((cache.run requests).run around).1
    Store.Mirrored orderOf countersOf capacity (looks + Request.looks capacity requests) requests
      (outcome.1, outcome.2.store) (Id.run (Store.run bare requests)) := by
  induction requests generalizing cache bare entries looks around with
  | nil =>
      have shows := alone.observed held
      have showsBare := alone.observed heldBare
      have none : Request.looks capacity ([] : List (Request κ ν)) = 0 := ite_self 0
      rw [none]
      exact
        { answered := rfl
          replies := rfl
          size_eq := shows.size_eq.trans showsBare.size_eq.symm
          nextErasure_eq := shows.nextErasure_eq.trans showsBare.nextErasure_eq.symm
          order := (orderOf_eq held).trans (orderOf_eq heldBare).symm
          counters := ahead }
  | cons request rest inductionHypothesis =>
      obtain ⟨next, heldNext, performed⟩ := run_perform follows held request around
      generalize around.after _ _ _ = later at performed
      obtain ⟨nextBare, performedBare, heldNextBare⟩ := alone.perform heldBare request
      have counted := counters_perform alone plain tallies held performed
      have countedBare := tallies heldBare request
      rw [performedBare] at countedBare
      have aheadNext : countersOf ({ cache with store := next } : EvictingCache ω σ κ ν).store =
          (countersOf nextBare).withLooks (looks + Request.looks capacity [request])
            (looks + Request.looks capacity [request]) := by
        rw [counted, Lineup.recordAll_tally_behind policy (alone.observed held).fits, ahead,
          Counters.recordAll_withLooks, Counters.withLooks_withLooks, ← countedBare]
        rfl
      have others := inductionHypothesis heldNext heldNextBare aheadNext later
      rw [run_cons performed, Store.run, performedBare, Lineup.cacheReply_eq,
        Request.looks_cons, ← Nat.add_assoc]
      exact
        { others with
          answered := congrArg (· + 1) others.answered
          replies := congrArg (List.cons _) others.replies }

/-- With any callbacks and in any surroundings, a run of requests to a cache over this store
mirrors the run of the same requests on the store. -/
def Transparent (orderOf : σ → Lineup κ ν) (countersOf : σ → Counters) (capacity : Nat)
    (store : σ) (requests : List (Request κ ν)) (callbacks : Callbacks ω κ ν)
    (around : Surroundings ω) : Prop :=
  let cache : EvictingCache ω σ κ ν := { store, callbacks }
  let outcome := ((cache.run requests).run around).1
  Store.Mirrored orderOf countersOf capacity (Request.looks capacity requests) requests
    (outcome.1, outcome.2.store) (Id.run (Store.run store requests))

theorem transparent (follows : Store.Follows (StateM ω) policy capacity holds)
    (alone : Store.Follows Id policy capacity holds) (plain : Store.Plain (StateM ω) σ)
    (tallies : Store.Tallies capacity holds countersOf)
    (orderOf_eq : ∀ {store entries}, holds store entries → orderOf store = entries)
    {store : σ} (fresh : holds store []) (requests : List (Request κ ν))
    (callbacks : Callbacks ω κ ν) (around : Surroundings ω) :
    Transparent orderOf countersOf capacity store requests callbacks around := by
  have level : countersOf ({ store, callbacks } : EvictingCache ω σ κ ν).store =
      (countersOf store).withLooks 0 0 := rfl
  have mirrored := mirrored_run follows alone plain tallies orderOf_eq requests fresh fresh level
    around
  rwa [Nat.zero_add] at mirrored

end EvictingCache

variable [Hashable κ]

/-- Whatever is requested of a cache and whatever its callbacks do, its store takes the
requests as it would without the cache. This is so over a fresh bounded store of either
policy and over a fresh store whose policy was chosen at run time, for every capacity. As
the list of requests is arbitrary, it is so after every request. -/
theorem EvictingCache.run_mirrors_store (policy : Policy) (capacity : Nat)
    (requests : List (Request κ ν)) (callbacks : Callbacks ω κ ν) (around : Surroundings ω) :
    Transparent BoundedStore.toList BoundedStore.counters capacity
        (.ofCapacity capacity : BoundedStore policy κ ν) requests callbacks around ∧
      Transparent PolicyStore.toList (·.store.counters) capacity
        (.ofCapacity policy capacity : PolicyStore κ ν) requests callbacks around :=
  ⟨transparent (BoundedStore.follows policy capacity) (BoundedStore.follows policy capacity)
      (BoundedStore.plain policy) (BoundedStore.tallies policy capacity)
      (fun held => held.toList_eq) (BoundedStore.holds_ofCapacity capacity) requests callbacks
      around,
    transparent (PolicyStore.follows policy capacity) (PolicyStore.follows policy capacity)
      PolicyStore.plain (PolicyStore.tallies policy capacity) (fun held => held.toList_eq)
      (PolicyStore.holds_ofCapacity policy capacity) requests callbacks around⟩

end GraphsAndCaches
