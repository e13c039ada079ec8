import GraphsAndCaches.Proofs.Eviction.EvictingCache
import Mathlib.Logic.Function.Basic

/-!
# The callbacks tell what a cache holds

Whoever hears the callbacks of a cache, and knows when it is cleared, can keep a replica
of its contents: an arrival sets the value of a key, a departure removes the key, and a
clearing empties the replica. After every request the replica has exactly the entries of
the store, and every departure names an entry that the replica has at that moment.

A run is cut into episodes, one for each request, with the callbacks that the recording
log gained. The law for one episode is a law of lineups, because the entries determine
what is announced. The law for a run follows by induction on the requests.
-/

namespace GraphsAndCaches

variable {σ κ ν : Type} [DecidableEq κ]

/-- The contents of a cache as a listener knows them. -/
abbrev Replica (κ ν : Type) := κ → Option ν

namespace Replica

/-- An arrival sets the value of its key, and a departure removes its key. -/
def apply (replica : Replica κ ν) : Occurrence κ ν → Replica κ ν
  | .inserted key value => Function.update replica key (some value)
  | .evicted key _ => Function.update replica key none
  | _ => replica

/-- The replica when a request begins. Only a clearing affects it. -/
def atBegin (replica : Replica κ ν) : Request κ ν → Replica κ ν
  | .clear => fun _ => none
  | _ => replica

/-- Each departure names a key that the replica has then, with its value. -/
def Truthful : Replica κ ν → List (Occurrence κ ν) → Prop
  | _, [] => True
  | replica, occurrence :: rest =>
      (∀ key value, occurrence = .evicted key value → replica key = some value) ∧
        Truthful (replica.apply occurrence) rest

end Replica

/-- One request to a cache, with the callbacks that it caused and the store before and
after it. -/
structure Episode (σ κ ν : Type) where
  before : σ
  request : Request κ ν
  calls : List (Occurrence κ ν)
  after : σ

namespace Episode

/-- What becomes of a replica in an episode. -/
def replay (episode : Episode σ κ ν) (replica : Replica κ ν) : Replica κ ν :=
  episode.calls.foldl Replica.apply (replica.atBegin episode.request)

/-- The callbacks of an episode are those that a listener needs, and an insertion causes
no others. -/
structure Faithful [Observable σ κ ν] (entriesOf : σ → Lineup κ ν) (capacity : Nat)
    (replica : Replica κ ν) (episode : Episode σ κ ν) : Prop where
  /-- Departures name what the replica has. -/
  truthful : (replica.atBegin episode.request).Truthful episode.calls
  /-- The replica ends up with the entries of the store. -/
  reproduced : ∀ key value,
    (key, value) ∈ entriesOf episode.after ↔ episode.replay replica key = some value
  /-- Without capacity nothing is announced. -/
  silent : capacity = 0 → episode.calls = []
  /-- A new key that meets a full store drives out the entry that the store named. -/
  eviction : ∀ key value, episode.request = .insert key value → 0 < capacity →
    (∀ old, (key, old) ∉ entriesOf episode.before) →
      Observable.isFull episode.before = true →
        ∃ victim, Observable.nextErasure episode.before = some victim ∧
          episode.calls = [.evicted victim.1 victim.2, .inserted key value]
  /-- Any other insertion is announced alone. -/
  arrival : ∀ key value, episode.request = .insert key value → 0 < capacity →
    ((∃ old, (key, old) ∈ entriesOf episode.before) ∨
      Observable.isFull episode.before = false) →
        episode.calls = [.inserted key value]

end Episode

/-- Each episode is faithful to the replica that the earlier ones have led to. -/
def Replica.Follows [Observable σ κ ν] (entriesOf : σ → Lineup κ ν) (capacity : Nat) :
    Replica κ ν → List (Episode σ κ ν) → Prop
  | _, [] => True
  | replica, episode :: rest =>
      episode.Faithful entriesOf capacity replica ∧
        Replica.Follows entriesOf capacity (episode.replay replica) rest

/-- The episodes of a run of requests. The callbacks of an episode are what the log
gains in it. -/
def EvictingCache.episodes [Observable σ κ ν] [Store (StateM (Log κ ν)) σ κ ν]
    (cache : EvictingCache (Log κ ν) σ κ ν) (around : Surroundings (Log κ ν)) :
    List (Request κ ν) → List (Episode σ κ ν)
  | [] => []
  | request :: rest =>
      let ((_, next), later) := (cache.perform request).run around
      { before := cache.store, request, after := next.store,
        calls := later.outside.toList.drop around.outside.size } :: next.episodes later rest

omit [DecidableEq κ] in
/-- There is an episode for each request. -/
theorem EvictingCache.map_request_episodes [Observable σ κ ν] [Store (StateM (Log κ ν)) σ κ ν]
    (cache : EvictingCache (Log κ ν) σ κ ν) (around : Surroundings (Log κ ν))
    (requests : List (Request κ ν)) :
    (cache.episodes around requests).map Episode.request = requests := by
  induction requests generalizing cache around with
  | nil => rfl
  | cons request rest inductionHypothesis =>
      exact congrArg (List.cons request) (inductionHypothesis _ _)

/-! ## One episode -/

namespace Lineup

variable {capacity : Nat} {entries : Lineup κ ν}

/-- An insertion sets its key and removes the key of the entry that departs. -/
theorem lookup_inserted_eq (policy : Policy) (positive : 0 < capacity)
    (distinct : (entries.map Prod.fst).Nodup) (key : κ) (value : ν) (other : κ) :
    (entries.inserted policy capacity key value).lookup other =
      if other = key then some value
      else if (entries.departing capacity key).map Prod.fst = some other then none
      else entries.lookup other := by
  rw [inserted, departing]
  cases found : entries.lookup key with
  | some old =>
      simp [lookup_written, lookup_used, found]
  | none =>
      simp [Nat.ne_of_gt positive, lookup_cons, lookup_makeRoom distinct]

/-- The entry that departs is there. -/
theorem lookup_of_departing (distinct : (entries.map Prod.fst).Nodup) {key : κ}
    {entry : κ × ν} (departs : entries.departing capacity key = some entry) :
    entries.lookup entry.1 = some entry.2 := by
  refine (lookup_eq_some_iff distinct).mpr ?_
  rw [departing] at departs
  split at departs
  · cases departs
  · exact List.mem_of_getLast? (getLast?_of_victim departs)

/-- What a cache announces, heard by a replica that has its entries. -/
theorem replay_announcements (policy : Policy) (fits : entries.length ≤ capacity)
    (distinct : (entries.map Prod.fst).Nodup) {replica : Replica κ ν}
    (agrees : ∀ key, replica key = entries.lookup key) (request : Request κ ν) (other : κ) :
    ((entries.announcements capacity request).map Announcement.occurrence).foldl Replica.apply
        (replica.atBegin request) other =
      (entries.answer policy capacity (.request request)).2.lookup other := by
  cases request with
  | insert key value =>
      by_cases zero : capacity = 0
      · simp only [announcements, if_pos zero, answer,
          inserted_of_capacity_eq_zero zero fits]
        exact agrees other
      · simp only [announcements, if_neg zero, answer]
        rw [lookup_inserted_eq policy (Nat.pos_of_ne_zero zero) distinct]
        cases entries.departing capacity key with
        | none =>
            change Function.update replica key (some value) other = _
            rw [Function.update_apply, agrees other]
            rfl
        | some victim =>
            change Function.update (Function.update replica victim.1 none) key (some value) other =
              _
            rw [Function.update_apply, Function.update_apply, agrees other]
            simp only [Option.map_some, Option.some.injEq, eq_comm]
  | erase key =>
      simp only [announcements, answer]
      rw [lookup_without]
      cases found : entries.lookup key with
      | none =>
          refine (agrees other).trans ?_
          by_cases same : other = key
          · rw [if_pos same, same, found]
          · rw [if_neg same]
      | some value =>
          change Function.update replica key none other = _
          rw [Function.update_apply, agrees other]
  | get key => exact (agrees other).trans (lookup_used policy entries key other).symm
  | clear => rfl
  | _ => exact agrees other

/-- What a cache announces is true of a replica that has its entries. -/
theorem truthful_announcements (distinct : (entries.map Prod.fst).Nodup) {replica : Replica κ ν}
    (agrees : ∀ key, replica key = entries.lookup key) (request : Request κ ν) :
    (replica.atBegin request).Truthful
      ((entries.announcements capacity request).map Announcement.occurrence) := by
  cases request with
  | insert key value =>
      by_cases zero : capacity = 0
      · simp only [announcements, if_pos zero]
        exact trivial
      · simp only [announcements, if_neg zero]
        cases departs : entries.departing capacity key with
        | none =>
            refine ⟨?_, trivial⟩
            rintro _ _ ⟨⟩
        | some victim =>
            refine ⟨?_, ?_, trivial⟩
            · rintro _ _ ⟨⟩
              exact (agrees victim.1).trans (lookup_of_departing distinct departs)
            · rintro _ _ ⟨⟩
  | erase key =>
      simp only [announcements]
      cases found : entries.lookup key with
      | none => exact trivial
      | some value =>
          refine ⟨?_, trivial⟩
          rintro _ _ ⟨⟩
          exact (agrees key).trans found
  | _ => exact trivial

end Lineup

/-- An episode whose callbacks are those of a lineup is faithful to every replica that
has its entries. -/
theorem Episode.faithful [Observable σ κ ν] {entriesOf : σ → Lineup κ ν} {policy : Policy}
    {capacity : Nat} {entries : Lineup κ ν} {replica : Replica κ ν} {episode : Episode σ κ ν}
    (before : Observable.Shows episode.before capacity entries)
    (before_eq : entriesOf episode.before = entries)
    (after : Observable.Shows episode.after capacity
      (entries.answer policy capacity (.request episode.request)).2)
    (after_eq : entriesOf episode.after =
      (entries.answer policy capacity (.request episode.request)).2)
    (calls : episode.calls =
      (entries.announcements capacity episode.request).map Announcement.occurrence)
    (agrees : ∀ key, replica key = entries.lookup key) :
    episode.Faithful entriesOf capacity replica where
  truthful := by
    rw [calls]
    exact Lineup.truthful_announcements before.distinct agrees episode.request
  reproduced key value := by
    rw [after_eq, replay, calls, Lineup.replay_announcements policy before.fits before.distinct
      agrees, Lineup.lookup_eq_some_iff after.distinct]
  silent zero := by
    rw [calls]
    cases episode.request with
    | insert key value => simp [Lineup.announcements, zero]
    | erase key =>
        have nothing : entries = [] :=
          List.eq_nil_of_length_eq_zero (Nat.le_zero.mp (zero ▸ before.fits))
        simp [Lineup.announcements, nothing]
    | _ => rfl
  eviction := by
    intro key value request positive absent full
    rw [before_eq] at absent
    rw [before.isFull_eq, beq_iff_eq] at full
    have lacks : entries.lookup key = none :=
      Lineup.lookup_eq_none_iff.mpr fun entry member named => absent entry.2 (named ▸ member)
    obtain ⟨victim, last⟩ := Lineup.exists_victim positive full
    refine ⟨victim, before.nextErasure_eq.trans last, ?_⟩
    rw [calls, request, Lineup.announcements, if_neg (Nat.ne_of_gt positive), Lineup.departing,
      lacks, Option.isSome_none, if_neg Bool.false_ne_true, last]
    rfl
  arrival := by
    intro key value request positive other
    rw [before_eq, before.isFull_eq] at other
    have stays : entries.departing capacity key = none := by
      simp only [Lineup.departing, Lineup.victim]
      rcases other with ⟨old, member⟩ | notFull
      · rw [(Lineup.lookup_eq_some_iff before.distinct).mpr member]
        rfl
      · rw [if_neg (beq_eq_false_iff_ne.mp notFull), ite_self]
    rw [calls, request, Lineup.announcements, if_neg (Nat.ne_of_gt positive), stays]
    rfl

/-! ## A run -/

namespace EvictingCache

variable [Observable σ κ ν] [Store (StateM (Log κ ν)) σ κ ν]
variable {policy : Policy} {capacity : Nat} {holds : σ → Lineup κ ν → Prop}
variable {entriesOf : σ → Lineup κ ν}

/-- The first episode of a run has the callbacks that the entries determine, and the rest
of the run begins where it ends. -/
theorem episodes_cons (follows : Store.Follows (StateM (Log κ ν)) policy capacity holds)
    {cache : EvictingCache (Log κ ν) σ κ ν} {entries : Lineup κ ν}
    (held : holds cache.store entries) (recorded : cache.callbacks = .recording)
    (around : Surroundings (Log κ ν)) (request : Request κ ν) (rest : List (Request κ ν)) :
    ∃ (next : EvictingCache (Log κ ν) σ κ ν) (later : Surroundings (Log κ ν)),
      (cache.perform request).run around =
          ((entries.cacheReply policy capacity request, next), later) ∧
        holds next.store (entries.answer policy capacity (.request request)).2 ∧
        next.callbacks = .recording ∧
        later.outside.toList = around.outside.toList ++
          (entries.announcements capacity request).map Announcement.occurrence ∧
        later.journal.toList = around.journal.toList ++ entries.diagnostics capacity request ∧
        cache.episodes around (request :: rest) =
          { before := cache.store, request, after := next.store,
            calls := (entries.announcements capacity request).map Announcement.occurrence } ::
              next.episodes later rest := by
  obtain ⟨store, heldNext, outcome⟩ := run_perform follows held request around
  have logged := Announcement.foldl_hear_recording (entries.announcements capacity request)
    around.outside
  rw [← recorded] at logged
  refine ⟨{ cache with store },
    around.after cache.callbacks _ (entries.diagnostics capacity request),
    outcome, heldNext, recorded, logged, Array.toList_append, ?_⟩
  rw [episodes, outcome, Surroundings.after]
  simp only [logged, ← Array.length_toList, List.drop_left]

/-- The log at the end of a run is what it was before, followed by the callbacks of the
episodes. -/
theorem log_run (follows : Store.Follows (StateM (Log κ ν)) policy capacity holds)
    (requests : List (Request κ ν)) {cache : EvictingCache (Log κ ν) σ κ ν}
    {entries : Lineup κ ν} (held : holds cache.store entries)
    (recorded : cache.callbacks = .recording) (around : Surroundings (Log κ ν)) :
    ((cache.run requests).run around).2.outside.toList =
      around.outside.toList ++ (cache.episodes around requests).flatMap Episode.calls := by
  induction requests generalizing cache entries around with
  | nil => exact (List.append_nil _).symm
  | cons request rest inductionHypothesis =>
      obtain ⟨next, later, performed, heldNext, recordedNext, logged, -, cut⟩ :=
        episodes_cons follows held recorded around request rest
      rw [run_cons performed, cut, inductionHypothesis heldNext recordedNext, logged,
        List.flatMap_cons, List.append_assoc]

/-- A replica that has the entries of the store when a run begins follows it to its end.

Induct on the requests. After each episode the replica has the entries of the store
again, so that the next episode is faithful to it as well. -/
theorem follows_episodes (follows : Store.Follows (StateM (Log κ ν)) policy capacity holds)
    (entriesOf_eq : ∀ {store entries}, holds store entries → entriesOf store = entries)
    (requests : List (Request κ ν)) {cache : EvictingCache (Log κ ν) σ κ ν}
    {entries : Lineup κ ν} (held : holds cache.store entries)
    (recorded : cache.callbacks = .recording) (around : Surroundings (Log κ ν))
    {replica : Replica κ ν} (agrees : ∀ key, replica key = entries.lookup key) :
    Replica.Follows entriesOf capacity replica (cache.episodes around requests) := by
  induction requests generalizing cache entries around replica with
  | nil => exact trivial
  | cons request rest inductionHypothesis =>
      obtain ⟨next, later, -, heldNext, recordedNext, -, -, cut⟩ :=
        episodes_cons follows held recorded around request rest
      have shows := follows.observed held
      rw [cut]
      refine ⟨?_, inductionHypothesis heldNext recordedNext later ?_⟩
      · exact Episode.faithful shows (entriesOf_eq held) (follows.observed heldNext)
          (entriesOf_eq heldNext) rfl agrees
      · exact Lineup.replay_announcements policy shows.fits shows.distinct agrees request

/-- The log of a recording cache over this store is that of its episodes, and an empty
replica follows them. -/
def Replayable (entriesOf : σ → Lineup κ ν) (capacity : Nat) (store : σ)
    (requests : List (Request κ ν)) : Prop :=
  let cache : EvictingCache (Log κ ν) σ κ ν := { store, callbacks := .recording }
  let episodes := cache.episodes { outside := #[] } requests
  ((cache.run requests).run { outside := #[] }).2.outside.toList =
      episodes.flatMap Episode.calls ∧
    Replica.Follows entriesOf capacity (fun _ => none) episodes

theorem replayable (follows : Store.Follows (StateM (Log κ ν)) policy capacity holds)
    (entriesOf_eq : ∀ {store entries}, holds store entries → entriesOf store = entries)
    {store : σ} (fresh : holds store []) (requests : List (Request κ ν)) :
    Replayable entriesOf capacity store requests :=
  ⟨log_run follows requests fresh rfl _,
    follows_episodes follows entriesOf_eq requests fresh rfl _ fun _ => rfl⟩

variable [Hashable κ]

/-- Replaying the callbacks of a cache reproduces what it holds. This is so over a fresh
bounded store of either policy and over a fresh store whose policy was chosen at run
time, whatever the capacity and the requests. After every request the replica has the
entries of the store, each departure names what the replica has, nothing is announced
without capacity, and an insertion announces its victim, if there is one, and itself. -/
theorem callbacks_reproduce_entries (policy : Policy) (capacity : Nat)
    (requests : List (Request κ ν)) :
    Replayable BoundedStore.toList capacity (.ofCapacity capacity : BoundedStore policy κ ν)
        requests ∧
      Replayable PolicyStore.toList capacity (.ofCapacity policy capacity : PolicyStore κ ν)
        requests :=
  ⟨replayable (BoundedStore.follows policy capacity) (fun held => held.toList_eq)
      (BoundedStore.holds_ofCapacity capacity) requests,
    replayable (PolicyStore.follows policy capacity) (fun held => held.toList_eq)
      (PolicyStore.holds_ofCapacity policy capacity) requests⟩

end EvictingCache

end GraphsAndCaches
