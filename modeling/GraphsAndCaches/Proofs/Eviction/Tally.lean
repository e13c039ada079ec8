import GraphsAndCaches.Proofs.Eviction.Contract

/-!
# What stores count

Which events a store counts for a request is decided by its entries. `Lineup.events` lists
them: one for most requests, two for an insertion that evicts, none for a question about
the store as a whole and none for an insertion that is refused. Bounded stores and stores
of a policy chosen at run time count exactly these events.
-/

namespace GraphsAndCaches

variable {σ κ ν : Type} [DecidableEq κ]

/-- Count events one after another. -/
def Counters.recordAll (counters : Counters) (events : List Counters.Event) : Counters :=
  events.foldl Counters.record counters

theorem Counters.recordAll_append (counters : Counters) (first second : List Counters.Event) :
    counters.recordAll (first ++ second) = (counters.recordAll first).recordAll second :=
  List.foldl_append

/-- Each counter goes up by the number of its events. -/
theorem Counters.recordAll_eq (counters : Counters) (events : List Counters.Event) :
    counters.recordAll events =
      { getHits := counters.getHits + events.count .getHit
        getMisses := counters.getMisses + events.count .getMiss
        insertNew := counters.insertNew + events.count .insertNew
        insertUpdates := counters.insertUpdates + events.count .insertUpdate
        evictions := counters.evictions + events.count .eviction
        eraseCalls := counters.eraseCalls + events.countP (· matches .erase _)
        eraseFound := counters.eraseFound + events.count (.erase true)
        clears := counters.clears + events.count .clear
        findCalls := counters.findCalls + events.count .find
        peekCalls := counters.peekCalls + events.count .peek } := by
  induction events generalizing counters with
  | nil => rfl
  | cons event rest inductionHypothesis =>
      have first : counters.recordAll (event :: rest) = (counters.record event).recordAll rest :=
        rfl
      rw [first, inductionHypothesis]
      rcases event with _ | _ | _ | _ | _ | (_ | _) | _ | _ | _
      all_goals simp [Counters.record, Nat.add_assoc, Nat.add_comm 1]

/-- What a store with these entries counts when it is asked for something. -/
def Lineup.events (capacity : Nat) (entries : Lineup κ ν) :
    Request κ ν → List Counters.Event
  | .insert key _ =>
      if (entries.lookup key).isSome then [.insertUpdate]
      else if capacity = 0 then []
      else ((entries.victim capacity).map fun _ => .eviction).toList ++ [.insertNew]
  | .get key => [if (entries.lookup key).isSome then .getHit else .getMiss]
  | .peek _ => [.peek]
  | .find _ => [.find]
  | .erase key => [.erase (entries.lookup key).isSome]
  | .clear => [.clear]
  | _ => []

/-- What is counted in a run of requests, which change the entries. -/
def Lineup.tally (policy : Policy) (capacity : Nat) (entries : Lineup κ ν) :
    List (Request κ ν) → List Counters.Event
  | [] => []
  | request :: rest =>
      entries.events capacity request ++
        tally policy capacity (entries.answer policy capacity (.request request)).2 rest

-- The second key drives out the first one, which is then not found.
example : ({} : Counters).recordAll
    (Lineup.tally .lru 1 [] [.insert 'a' 1, .insert 'b' 2, .get 'b', .erase 'a']) =
      { insertNew := 2, evictions := 1, getHits := 1, eraseCalls := 1 } := by decide

/-- Stores that hold entries count what the entries decide, on top of what they counted
before. -/
def Store.Tallies [Observable σ κ ν] [Store Id σ κ ν] (capacity : Nat)
    (holds : σ → Lineup κ ν → Prop) (countersOf : σ → Counters) : Prop :=
  ∀ {store : σ} {entries : Lineup κ ν}, holds store entries → ∀ request : Request κ ν,
    countersOf (Id.run (Store.perform store request)).2 =
      (countersOf store).recordAll (entries.events capacity request)

/-- A run of requests is counted request by request. -/
theorem Store.Tallies.run [Observable σ κ ν] [Store Id σ κ ν] {policy : Policy} {capacity : Nat}
    {holds : σ → Lineup κ ν → Prop} {countersOf : σ → Counters}
    (tallies : Store.Tallies capacity holds countersOf)
    (follows : Store.Follows Id policy capacity holds) {store : σ} {entries : Lineup κ ν}
    (held : holds store entries) (requests : List (Request κ ν)) :
    countersOf (Id.run (Store.run store requests)).2 =
      (countersOf store).recordAll (entries.tally policy capacity requests) := by
  induction requests generalizing store entries with
  | nil => rfl
  | cons request rest inductionHypothesis =>
      obtain ⟨next, outcome, heldNext⟩ := follows.perform held request
      have counted := tallies held request
      rw [outcome] at counted
      change countersOf next = _ at counted
      rw [Store.run, outcome, Lineup.tally, Counters.recordAll_append, ← counted,
        ← inductionHypothesis heldNext]
      rfl

variable [Hashable κ]

namespace BoundedStore

variable {policy : Policy} {store : BoundedStore policy κ ν} {capacity : Nat}
  {entries : Lineup κ ν}

/-- A use of a key is not counted by itself. -/
theorem counters_touch (store : BoundedStore policy κ ν) (key : κ) :
    (store.touch key).2.counters = store.counters := by
  unfold touch
  split <;> rfl

namespace Holds

variable (holds : store.Holds capacity entries)
include holds

theorem counters_get (key : κ) :
    (store.get key).2.counters =
      store.counters.record (if (entries.lookup key).isSome then .getHit else .getMiss) := by
  rw [BoundedStore.get, holds.contains_eq key]
  split
  · exact counters_touch (store.count .getHit) key
  · rfl

/-- An eviction is counted when there is a victim. -/
theorem counters_makeRoom :
    store.makeRoom.counters =
      store.counters.recordAll ((entries.victim capacity).map fun _ => .eviction).toList := by
  rw [BoundedStore.makeRoom, Lineup.victim]
  by_cases full : entries.length = capacity
  · rw [if_pos (holds.capacity_le_size_iff.mpr full), if_pos full, ← holds.popOldest.1]
    have kept : store.popOldest.2.counters = store.counters := rfl
    generalize store.popOldest = outcome at kept
    obtain ⟨entry, rest⟩ := outcome
    cases entry with
    | none => exact kept
    | some entry => exact congrArg (·.record .eviction) kept
  · rw [if_neg (mt holds.capacity_le_size_iff.mp full), if_neg full]
    rfl

theorem counters_insert (key : κ) (value : ν) :
    (store.insert key value).2.counters =
      store.counters.recordAll (entries.events capacity (.insert key value)) := by
  rw [BoundedStore.insert, holds.contains_eq key, holds.capacity_eq, Lineup.events]
  cases entries.lookup key with
  | some old => exact counters_touch (store.count .insertUpdate) key
  | none =>
      by_cases zero : capacity = 0
      · simp only [Option.isSome_none, Bool.false_eq_true, if_false, if_pos zero]
        rfl
      · simp only [Option.isSome_none, Bool.false_eq_true, if_false, if_neg zero]
        rw [Counters.recordAll_append, ← holds.counters_makeRoom]
        rfl

end Holds

theorem tallies (policy : Policy) (capacity : Nat) :
    Store.Tallies capacity
      (fun (store : BoundedStore policy κ ν) entries => store.Holds capacity entries)
      BoundedStore.counters := by
  intro store entries holds request
  cases request with
  | insert key value => exact holds.counters_insert key value
  | get key => exact holds.counters_get key
  | erase key =>
      exact congrArg (fun removed : Option ν => store.counters.record (.erase removed.isSome))
        (holds.erase key).1
  | _ => rfl

end BoundedStore

namespace PolicyStore

/-- A store of a policy chosen at run time performs a request as its bounded store does. -/
theorem perform_mk (policy : Policy) (store : BoundedStore policy κ ν) (request : Request κ ν) :
    (Id.run (Store.perform ({ policy, store } : PolicyStore κ ν) request)).2 =
      { policy, store := (Id.run (Store.perform store request)).2 } := by
  cases request <;> rfl

theorem tallies (policy : Policy) (capacity : Nat) :
    Store.Tallies capacity (Holds policy capacity : PolicyStore κ ν → _ → Prop)
      (·.store.counters) := by
  rintro whole entries ⟨store, rfl, holds⟩ request
  rw [perform_mk]
  exact BoundedStore.tallies policy capacity holds request

end PolicyStore

end GraphsAndCaches
