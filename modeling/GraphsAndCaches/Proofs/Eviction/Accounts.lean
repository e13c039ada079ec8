import GraphsAndCaches.Proofs.Eviction.Replay
import GraphsAndCaches.Proofs.Eviction.Tally
import GraphsAndCaches.Proofs.Eviction.Transparency

/-!
# Accounts of a run

Three accounts are kept of what happens to a cache. The store counts what it is asked,
the callbacks hear what arrives and departs, and the journal records every eviction; the
caller knows besides what it requested and what was replied. These accounts are kept by
different code, and they agree.
-/

namespace GraphsAndCaches

variable {σ κ ν : Type}

/-- The numbers that all counters show. -/
def Counters.values (counters : Counters) : List Nat :=
  [counters.getHits, counters.getMisses, counters.insertNew, counters.insertUpdates,
    counters.evictions, counters.eraseCalls, counters.eraseFound, counters.clears,
    counters.findCalls, counters.peekCalls]

/-- What a stretch of a run added to the counters of the store agrees with its requests
and their replies, with what the callbacks heard in its episodes, and with what was
written into the journal. -/
structure Reconciled (capacity : Nat) (before after : Counters)
    (exchanges : List (Request κ ν × Reply κ ν)) (episodes : List (Episode σ κ ν))
    (journal : List Diagnostic) : Prop where
  /-- Every insertion is counted, as a new entry or as an update. -/
  inserts : after.insertNew + after.insertUpdates =
    before.insertNew + before.insertUpdates + exchanges.countP (· matches (.insert .., _))
  /-- Every insertion is announced, and nothing else arrives. -/
  arrivals : (episodes.flatMap Episode.calls).countP (· matches .inserted ..) =
    exchanges.countP (· matches (.insert .., _))
  /-- Evictions are the departures that insertions announce. -/
  evictions : after.evictions = before.evictions +
    ((episodes.filter (·.request matches .insert ..)).flatMap Episode.calls).countP
      (· matches .evicted ..)
  /-- The journal records evictions and nothing else. -/
  journaled : after.evictions = before.evictions + journal.length
  /-- Each of them happened when the cache was full. -/
  full : ∀ diagnostic ∈ journal, diagnostic = .evicting capacity
  /-- An insertion evicts one entry at most. -/
  single : journal.length ≤ exchanges.countP (· matches (.insert .., _))
  erases : after.eraseCalls = before.eraseCalls + exchanges.countP (· matches (.erase _, _))
  /-- Erasures found something as often as they said so. -/
  found : after.eraseFound = before.eraseFound + exchanges.countP (· matches (.erase _, .flag true))
  /-- Erasures found something as often as they announced a departure. -/
  departures : after.eraseFound = before.eraseFound +
    ((episodes.filter (·.request matches .erase _)).flatMap Episode.calls).countP
      (· matches .evicted ..)
  hits : after.getHits = before.getHits + exchanges.countP (· matches (.get _, .value (some _)))
  misses : after.getMisses = before.getMisses + exchanges.countP (· matches (.get _, .value none))
  /-- The store is asked for keys by the caller, and once in every insertion. -/
  finds : after.findCalls = before.findCalls +
    (exchanges.countP (· matches (.find _, _)) + exchanges.countP (· matches (.insert .., _)))
  /-- The store is asked for values by the caller, and once in every insertion. -/
  peeks : after.peekCalls = before.peekCalls +
    (exchanges.countP (· matches (.peek _, _)) + exchanges.countP (· matches (.insert .., _)))
  clears : after.clears = before.clears + exchanges.countP (· matches (.clear, _))

/-- No item is counted twice by two tests that exclude each other. -/
theorem countP_add_countP_le_length {α : Type} {first second : α → Bool}
    (excluded : ∀ item, first item = true → second item = false) (items : List α) :
    items.countP first + items.countP second ≤ items.length := by
  rw [List.length_eq_countP_add_countP first]
  refine Nat.add_le_add_left (List.countP_mono_left fun item _ passes => ?_) _
  exact decide_eq_true fun both => by simp [excluded item both] at passes

namespace Reconciled

variable {capacity : Nat}

/-- Where nothing happens nothing is to be reconciled. -/
theorem nil (counters : Counters) :
    Reconciled capacity counters counters ([] : List (Request κ ν × Reply κ ν))
      ([] : List (Episode σ κ ν)) [] := by
  constructor
  case full => exact List.forall_mem_nil _
  case single => exact Nat.le_refl 0
  all_goals rfl

/-- The accounts of two stretches that follow one another add up. -/
theorem append {before middle after : Counters}
    {exchanges more : List (Request κ ν × Reply κ ν)} {episodes further : List (Episode σ κ ν)}
    {journal added : List Diagnostic}
    (first : Reconciled capacity before middle exchanges episodes journal)
    (second : Reconciled capacity middle after more further added) :
    Reconciled capacity before after (exchanges ++ more) (episodes ++ further)
      (journal ++ added) where
  inserts := by rw [second.inserts, first.inserts, List.countP_append, Nat.add_assoc]
  arrivals := by
    rw [List.flatMap_append, List.countP_append, first.arrivals, second.arrivals,
      List.countP_append]
  evictions := by
    rw [second.evictions, first.evictions, List.filter_append, List.flatMap_append,
      List.countP_append, Nat.add_assoc]
  journaled := by rw [second.journaled, first.journaled, List.length_append, Nat.add_assoc]
  full := List.forall_mem_append.mpr ⟨first.full, second.full⟩
  single := by
    rw [List.length_append, List.countP_append]
    exact Nat.add_le_add first.single second.single
  erases := by rw [second.erases, first.erases, List.countP_append, Nat.add_assoc]
  found := by rw [second.found, first.found, List.countP_append, Nat.add_assoc]
  departures := by
    rw [second.departures, first.departures, List.filter_append, List.flatMap_append,
      List.countP_append, Nat.add_assoc]
  hits := by rw [second.hits, first.hits, List.countP_append, Nat.add_assoc]
  misses := by rw [second.misses, first.misses, List.countP_append, Nat.add_assoc]
  finds := by
    rw [second.finds, first.finds, List.countP_append, List.countP_append]
    omega
  peeks := by
    rw [second.peeks, first.peeks, List.countP_append, List.countP_append]
    omega
  clears := by rw [second.clears, first.clears, List.countP_append, Nat.add_assoc]

/-- No counter of a fresh store exceeds the number of requests. An insertion is counted up
to four times, but each time by another counter. -/
theorem le_length {counters : Counters} {exchanges : List (Request κ ν × Reply κ ν)}
    {episodes : List (Episode σ κ ν)} {journal : List Diagnostic}
    (reconciled : Reconciled capacity {} counters exchanges episodes journal) :
    ∀ count ∈ counters.values, count ≤ exchanges.length := by
  have within : ∀ {count : Nat} {test : Request κ ν × Reply κ ν → Bool},
      count = 0 + exchanges.countP test → count ≤ exchanges.length := by
    rintro _ test rfl
    rw [Nat.zero_add]
    exact List.countP_le_length
  have inserts : counters.insertNew + counters.insertUpdates ≤ exchanges.length :=
    within reconciled.inserts
  have evictions : counters.evictions ≤ exchanges.length := by
    rw [reconciled.journaled, Nat.zero_add]
    exact Nat.le_trans reconciled.single List.countP_le_length
  simp only [Counters.values, List.forall_mem_cons]
  refine ⟨within reconciled.hits, within reconciled.misses, by omega, by omega, evictions,
    within reconciled.erases, within reconciled.found, within reconciled.clears, ?finds, ?peeks,
    nofun⟩
  case finds =>
    rw [reconciled.finds, Nat.zero_add]
    refine countP_add_countP_le_length ?_ exchanges
    rintro ⟨_ | _, _⟩ <;> simp
  case peeks =>
    rw [reconciled.peeks, Nat.zero_add]
    refine countP_add_countP_le_length ?_ exchanges
    rintro ⟨_ | _, _⟩ <;> simp

end Reconciled

variable [DecidableEq κ]

/-! ## One request -/

namespace Lineup

variable {capacity : Nat}

/-- Behind an insertion two questions are counted as well. -/
theorem tally_behind_insert (policy : Policy) (positive : 0 < capacity) (entries : Lineup κ ν)
    (key : κ) (value : ν) :
    entries.tally policy capacity ((Request.insert key value).behind capacity) =
      .find :: (entries.events capacity (.insert key value) ++ [.peek]) := by
  rw [Request.behind, if_neg (Nat.ne_of_gt positive)]
  rfl

/-- The account of an insertion. It tells apart whether the key is resident and, when it is
not, whether another entry departs. -/
theorem reconciled_insert (policy : Policy) (positive : 0 < capacity) (entries : Lineup κ ν)
    (key : κ) (value : ν) (counters : Counters) (before after : σ) :
    Reconciled capacity counters
      (counters.recordAll
        (entries.tally policy capacity ((Request.insert key value).behind capacity)))
      [(.insert key value, entries.cacheReply policy capacity (.insert key value))]
      [{ before, request := .insert key value, after,
         calls := (entries.announcements capacity (.insert key value)).map
           Announcement.occurrence }]
      (entries.diagnostics capacity (.insert key value)) := by
  rw [tally_behind_insert policy positive]
  simp only [events, announcements, diagnostics, departing, if_neg (Nat.ne_of_gt positive)]
  cases entries.lookup key with
  | some old =>
      constructor
      case full => exact List.forall_mem_nil _
      case single => exact Nat.zero_le 1
      all_goals rfl
  | none =>
      cases leaves : entries.victim capacity with
      | none =>
          constructor
          case inserts => exact Nat.add_right_comm counters.insertNew 1 counters.insertUpdates
          case full => exact List.forall_mem_nil _
          case single => exact Nat.zero_le 1
          all_goals rfl
      | some victim =>
          have full : entries.length = capacity :=
            (isSome_victim_iff.mp (Option.isSome_of_eq_some leaves)).1
          constructor
          case inserts => exact Nat.add_right_comm counters.insertNew 1 counters.insertUpdates
          case full => exact List.forall_mem_singleton.mpr (congrArg Diagnostic.evicting full)
          case single => exact Nat.le_refl 1
          all_goals rfl

/-- What a cache with these entries counts, replies, announces and records is reconciled. -/
theorem reconciled (policy : Policy) (positive : 0 < capacity) (entries : Lineup κ ν)
    (request : Request κ ν) (counters : Counters) (before after : σ) :
    Reconciled capacity counters
      (counters.recordAll (entries.tally policy capacity (request.behind capacity)))
      [(request, entries.cacheReply policy capacity request)]
      [{ before, request, after,
         calls := (entries.announcements capacity request).map Announcement.occurrence }]
      (entries.diagnostics capacity request) := by
  cases request with
  | insert key value =>
      exact reconciled_insert policy positive entries key value counters before after
  | get key =>
      simp only [cacheReply, answer, Request.behind, tally, events]
      cases entries.lookup key
      all_goals
        constructor
        case full => exact List.forall_mem_nil _
        case single => exact Nat.zero_le 0
        all_goals rfl
  | erase key =>
      simp only [cacheReply, announcements, Request.behind, tally, events]
      cases entries.lookup key
      all_goals
        constructor
        case full => exact List.forall_mem_nil _
        case single => exact Nat.zero_le 0
        all_goals rfl
  | _ =>
      constructor
      case full => exact List.forall_mem_nil _
      case single => exact Nat.zero_le 0
      all_goals rfl

end Lineup

/-- The store counts what the requests behind a request to the cache make it count. -/
theorem EvictingCache.counters_perform {ω : Type} [Observable σ κ ν] [Store (StateM ω) σ κ ν]
    [Store Id σ κ ν] {policy : Policy} {capacity : Nat} {holds : σ → Lineup κ ν → Prop}
    {countersOf : σ → Counters} (alone : Store.Follows Id policy capacity holds)
    (plain : Store.Plain (StateM ω) σ) (tallies : Store.Tallies capacity holds countersOf)
    {cache next : EvictingCache ω σ κ ν} {entries : Lineup κ ν} (held : holds cache.store entries)
    {request : Request κ ν} {reply : Reply κ ν} {around later : Surroundings ω}
    (performed : (cache.perform request).run around = ((reply, next), later)) :
    countersOf next.store = (countersOf cache.store).recordAll
      (entries.tally policy capacity (request.behind capacity)) := by
  have reached := snd_run_perform plain cache request around
  rw [performed, EvictingCache.capacity, (alone.observed held).capacity_eq] at reached
  rw [← tallies.run alone held (request.behind capacity)]
  exact congrArg (fun cache => countersOf cache.store) reached

/-! ## A run -/

namespace EvictingCache

variable [Observable σ κ ν] [Store (StateM (Log κ ν)) σ κ ν]

/-- The accounts of a run over this store, with callbacks that write all they hear, can be
laid side by side: each request has its reply and its episode, and each call of a callback
is in the episode of its request. With capacity the accounts agree, and no counter exceeds
the number of requests. Without capacity nothing is recorded, and an insertion leaves the
callbacks and the store with its counters alone. -/
def Balanced (countersOf : σ → Counters) (capacity : Nat) (store : σ)
    (requests : List (Request κ ν)) : Prop :=
  let cache : EvictingCache (Log κ ν) σ κ ν := { store, callbacks := .recording }
  let episodes := cache.episodes { outside := #[] } requests
  let outcome := (cache.run requests).run { outside := #[] }
  let replies := outcome.1.1
  let counters := countersOf outcome.1.2.store
  let journal := outcome.2.journal.toList
  (replies.length = requests.length ∧ episodes.map Episode.request = requests ∧
      outcome.2.outside.toList = episodes.flatMap Episode.calls) ∧
    (0 < capacity →
      Reconciled capacity {} counters (requests.zip replies) episodes journal ∧
        ∀ count ∈ counters.values, count ≤ requests.length) ∧
    (capacity = 0 →
      journal = [] ∧ ∀ episode ∈ episodes, (episode.request matches .insert ..) = true →
        episode.calls = [] ∧ episode.after = episode.before)

variable {policy : Policy} {capacity : Nat} {holds : σ → Lineup κ ν → Prop}
variable (follows : Store.Follows (StateM (Log κ ν)) policy capacity holds)
include follows

/-- Without capacity nothing is recorded, and insertions pass without a trace. -/
theorem refused_run (zero : capacity = 0) (requests : List (Request κ ν))
    {cache : EvictingCache (Log κ ν) σ κ ν} {entries : Lineup κ ν}
    (held : holds cache.store entries) (recorded : cache.callbacks = .recording)
    (around : Surroundings (Log κ ν)) :
    ((cache.run requests).run around).2.journal.toList = around.journal.toList ∧
      ∀ episode ∈ cache.episodes around requests, (episode.request matches .insert ..) = true →
        episode.calls = [] ∧ episode.after = episode.before := by
  induction requests generalizing cache entries around with
  | nil => exact ⟨rfl, nofun⟩
  | cons request rest inductionHypothesis =>
      obtain ⟨next, later, performed, heldNext, recordedNext, -, journaled, cut⟩ :=
        episodes_cons follows held recorded around request rest
      obtain ⟨final, others⟩ := inductionHypothesis heldNext recordedNext later
      rw [run_cons performed, cut]
      refine ⟨?_, List.forall_mem_cons.mpr ⟨?_, others⟩⟩
      · have nothing : entries.diagnostics capacity request = [] := by
          cases request with
          | insert key value => exact if_pos zero
          | _ => rfl
        rw [nothing, List.append_nil] at journaled
        exact final.trans journaled
      · intro inserts
        cases request with
        | insert key value =>
            have noRoom : cache.capacity = 0 := (follows.observed held).capacity_eq.trans zero
            rw [run_perform_insert_of_capacity_eq_zero noRoom] at performed
            have same : cache = next := congrArg (·.1.2) performed
            refine ⟨?_, congrArg EvictingCache.store same.symm⟩
            change List.map _ (Lineup.announcements ..) = _
            rw [Lineup.announcements, if_pos zero]
            rfl
        | _ => cases inserts

variable [Store Id σ κ ν] {countersOf : σ → Counters}
variable (alone : Store.Follows Id policy capacity holds)
variable (plain : Store.Plain (StateM (Log κ ν)) σ)
variable (tallies : Store.Tallies capacity holds countersOf)
include alone plain tallies

/-- The accounts of a run agree, wherever it begins.

Induct on the requests. What the entries say about the first one is reconciled, and the
rest of the run adds to it. -/
theorem reconciled_run (positive : 0 < capacity) (requests : List (Request κ ν))
    {cache : EvictingCache (Log κ ν) σ κ ν} {entries : Lineup κ ν}
    (held : holds cache.store entries) (recorded : cache.callbacks = .recording)
    (around : Surroundings (Log κ ν)) :
    let outcome := (cache.run requests).run around
    ∃ added : List Diagnostic,
      outcome.2.journal.toList = around.journal.toList ++ added ∧
        Reconciled capacity (countersOf cache.store) (countersOf outcome.1.2.store)
          (requests.zip outcome.1.1) (cache.episodes around requests) added := by
  induction requests generalizing cache entries around with
  | nil => exact ⟨[], (List.append_nil _).symm, .nil _⟩
  | cons request rest inductionHypothesis =>
      obtain ⟨next, later, performed, heldNext, recordedNext, -, journaled, cut⟩ :=
        episodes_cons follows held recorded around request rest
      obtain ⟨added, final, others⟩ := inductionHypothesis heldNext recordedNext later
      have first := entries.reconciled policy positive request (countersOf cache.store)
        cache.store next.store
      rw [← counters_perform alone plain tallies held performed] at first
      rw [run_cons performed, cut]
      refine ⟨entries.diagnostics capacity request ++ added, ?_, first.append others⟩
      rw [← List.append_assoc, ← journaled]
      exact final

/-- The accounts of a run that begins with an unused store agree. -/
theorem balanced {store : σ} (fresh : holds store []) (unused : countersOf store = {})
    (requests : List (Request κ ν)) : Balanced countersOf capacity store requests := by
  unfold Balanced
  intro cache episodes outcome replies counters journal
  have recorded : cache.callbacks = .recording := rfl
  have answered : replies.length = requests.length := length_replies cache _ requests
  refine ⟨⟨answered, map_request_episodes cache _ requests, ?_⟩, ?_, ?_⟩
  · exact log_run follows requests fresh recorded _
  · intro positive
    obtain ⟨added, journaled, reconciled⟩ :=
      reconciled_run follows alone plain tallies positive requests fresh recorded
        { outside := #[] }
    obtain rfl : journal = added := journaled
    rw [unused] at reconciled
    have few := reconciled.le_length
    rw [List.length_zip, answered, Nat.min_self] at few
    exact ⟨reconciled, few⟩
  · intro zero
    exact refused_run follows zero requests fresh recorded _

end EvictingCache

variable [Hashable κ]

/-- The accounts of a cache agree, whatever is requested and whatever its capacity. This is
so over a fresh bounded store of either policy and over a fresh store whose policy was
chosen at run time. -/
theorem EvictingCache.accounts_balanced (policy : Policy) (capacity : Nat)
    (requests : List (Request κ ν)) :
    Balanced BoundedStore.counters capacity (.ofCapacity capacity : BoundedStore policy κ ν)
        requests ∧
      Balanced (·.store.counters) capacity
        (.ofCapacity policy capacity : PolicyStore κ ν) requests :=
  ⟨balanced (BoundedStore.follows policy capacity) (BoundedStore.follows policy capacity)
      (BoundedStore.plain policy) (BoundedStore.tallies policy capacity)
      (BoundedStore.holds_ofCapacity capacity) rfl requests,
    balanced (PolicyStore.follows policy capacity) (PolicyStore.follows policy capacity)
      PolicyStore.plain (PolicyStore.tallies policy capacity)
      (PolicyStore.holds_ofCapacity policy capacity) rfl requests⟩

end GraphsAndCaches
