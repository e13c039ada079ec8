import GraphsAndCaches.Eviction.EvictingCache
import GraphsAndCaches.Eviction.Recording
import GraphsAndCaches.Proofs.Eviction.Store

/-!
# What a cache announces

A cache over a store that follows a lineup announces what the lineup says: the entry
that a new key drives out, the value that an insertion leaves under its key, and the
entry that an erasure takes away. Whatever the callbacks do with this, the store goes
on as it would on its own.

The effect of a request on the surroundings of a cache is therefore given by a list of
announcements and a list of diagnostics, which depend on nothing but the entries.
-/

namespace GraphsAndCaches

variable {ω σ κ ν : Type}

/-- What a cache tells its callbacks. -/
inductive Announcement (κ ν : Type) where
  | arrival (key : κ) (value : ν)
  | departure (key : κ) (value : ν)
deriving DecidableEq

namespace Announcement

/-- The state of the callbacks once they were told. -/
def hear (callbacks : Callbacks ω κ ν) (outside : ω) : Announcement κ ν → ω
  | .arrival key value => ((callbacks.onInsert key value).run outside).2
  | .departure key value => ((callbacks.onEvict key value).run outside).2

/-- What recording callbacks write. -/
def occurrence : Announcement κ ν → Occurrence κ ν
  | .arrival key value => .inserted key value
  | .departure key value => .evicted key value

/-- Recording callbacks write all that they are told, in order. -/
theorem foldl_hear_recording (announcements : List (Announcement κ ν)) (log : Log κ ν) :
    (announcements.foldl (hear Callbacks.recording) log).toList =
      log.toList ++ announcements.map occurrence := by
  induction announcements generalizing log with
  | nil => simp
  | cons announcement rest inductionHypothesis =>
      have written : (hear Callbacks.recording log announcement).toList =
          log.toList ++ [announcement.occurrence] := by
        cases announcement <;> exact Array.toList_push
      rw [List.foldl_cons, inductionHypothesis, written, List.append_assoc]
      rfl

end Announcement

/-- The surroundings of a cache after some announcements and diagnostics. -/
def Surroundings.after (around : Surroundings ω) (callbacks : Callbacks ω κ ν)
    (announcements : List (Announcement κ ν)) (diagnostics : List Diagnostic) :
    Surroundings ω where
  outside := announcements.foldl (Announcement.hear callbacks) around.outside
  journal := around.journal ++ diagnostics.toArray

theorem Surroundings.after_nil (around : Surroundings ω) (callbacks : Callbacks ω κ ν) :
    around.after callbacks [] [] = around := by
  simp [after]

theorem Surroundings.after_after (around : Surroundings ω) (callbacks : Callbacks ω κ ν)
    (first second : List (Announcement κ ν)) (diagnostics more : List Diagnostic) :
    (around.after callbacks first diagnostics).after callbacks second more =
      around.after callbacks (first ++ second) (diagnostics ++ more) := by
  simp [after, List.foldl_append]

/-- An operation with a known outcome changes the store and nothing else. -/
theorem EvictingCache.run_changeStore {cache : EvictingCache ω σ κ ν} {α : Type}
    {operation : σ → StateM ω (α × σ)} {answer : α}
    {next : σ} (known : operation cache.store = pure (answer, next)) (around : Surroundings ω) :
    (cache.changeStore operation).run around =
      ((answer, { cache with store := next }), around) := by
  obtain ⟨store, callbacks⟩ := cache
  rw [changeStore, known]
  rfl

variable [DecidableEq κ]

namespace Lineup

/-- The entry that an insertion drives out. -/
def departing (capacity : Nat) (entries : Lineup κ ν) (key : κ) : Option (κ × ν) :=
  if (entries.lookup key).isSome then none else entries.victim capacity

/-- What a cache with these entries announces when it is asked for something. -/
def announcements (capacity : Nat) (entries : Lineup κ ν) :
    Request κ ν → List (Announcement κ ν)
  | .insert key value =>
      if capacity = 0 then []
      else ((entries.departing capacity key).map fun victim =>
        .departure victim.1 victim.2).toList ++ [.arrival key value]
  | .erase key => ((entries.lookup key).map (.departure key)).toList
  | _ => []

-- A new key drives out the last entry of a full cache, and a known key drives out nothing.
example : announcements 1 [('a', 1)] (.insert 'b' 2) = [.departure 'a' 1, .arrival 'b' 2] := by
  decide

example : announcements 1 [('a', 1)] (.insert 'a' 2) = [.arrival 'a' 2] := by decide

/-- What a cache with these entries records when it is asked for something. -/
def diagnostics (capacity : Nat) (entries : Lineup κ ν) : Request κ ν → List Diagnostic
  | .insert key _ =>
      if capacity = 0 then []
      else ((entries.departing capacity key).map fun _ => .evicting entries.length).toList
  | _ => []

/-- The reply of a cache with these entries. It differs from that of the store in the
flags that answer insertions and erasures. -/
def cacheReply (policy : Policy) (capacity : Nat) (entries : Lineup κ ν)
    (request : Request κ ν) : Reply κ ν :=
  match request with
  | .insert _ _ => .flag (capacity ≠ 0)
  | .erase key => .flag (entries.lookup key).isSome
  | request => (entries.answer policy capacity (.request request)).1

end Lineup

namespace EvictingCache

variable [Observable σ κ ν] {cache : EvictingCache ω σ κ ν}
variable {policy : Policy} {capacity : Nat} {entries : Lineup κ ν}

/-- An eviction is announced and recorded when there is a victim. -/
theorem run_announceEviction (shows : Observable.Shows cache.store capacity entries)
    (around : Surroundings ω) :
    cache.announceEviction.run around =
      ((), around.after cache.callbacks
        ((entries.victim capacity).map fun victim => .departure victim.1 victim.2).toList
        ((entries.victim capacity).map fun _ => .evicting entries.length).toList) := by
  rw [announceEviction, isFull, size, shows.isFull_eq, shows.nextErasure_eq, shows.size_eq]
  by_cases full : entries.length = capacity
  · rw [if_pos (beq_iff_eq.mpr full)]
    cases entries.victim capacity with
    | none => exact congrArg (Prod.mk ()) (around.after_nil cache.callbacks).symm
    | some victim =>
        rw [Surroundings.after]
        rfl
  · rw [if_neg (mt beq_iff_eq.mp full), Lineup.victim, if_neg full]
    exact congrArg (Prod.mk ()) (around.after_nil cache.callbacks).symm

/-- What the store holds under a key is announced. -/
theorem run_announceArrival (shows : Observable.Shows cache.store capacity entries)
    {key : κ} {value : ν} (found : entries.lookup key = some value) (around : Surroundings ω) :
    (cache.announceArrival key).run around =
      ((true, { cache with store := Observable.afterPeek cache.store }),
        around.after cache.callbacks [.arrival key value] []) := by
  have heard : around.after cache.callbacks [.arrival key value] [] =
      { around with outside := ((cache.callbacks.onInsert key value).run around.outside).2 } := by
    simp [Surroundings.after, Announcement.hear]
  rw [announceArrival, peek, shows.peek_eq key, found, heard]
  rfl

variable [Store (StateM ω) σ κ ν]

/-- What an insertion does once it is settled whether an entry leaves. -/
def write (cache : EvictingCache ω σ κ ν) (key : κ) (value : ν) :
    Act ω (Bool × EvictingCache ω σ κ ν) := do
  let (_, cache) ← cache.changeStore (Store.insert · key value)
  cache.announceArrival key

omit [DecidableEq κ] in
/-- An insertion with capacity asks for the key and announces an eviction if it is new. -/
theorem insert_of_capacity_ne_zero (nonzero : cache.capacity ≠ 0) (key : κ) (value : ν) :
    cache.insert key value =
      let noted := { cache with store := Observable.afterFind cache.store }
      if Observable.find cache.store key then noted.write key value
      else noted.announceEviction >>= fun _ => noted.write key value := by
  rw [insert, if_neg nonzero, find]
  cases Observable.find cache.store key <;> rfl

variable {holds : σ → Lineup κ ν → Prop}
variable (follows : Store.Follows (StateM ω) policy capacity holds)
include follows

theorem run_insert (held : holds cache.store entries) (key : κ) (value : ν)
    (around : Surroundings ω) :
    ∃ next, holds next (entries.inserted policy capacity key value) ∧
      (cache.insert key value).run around =
        ((decide (capacity ≠ 0), { cache with store := next }),
          around.after cache.callbacks (entries.announcements capacity (.insert key value))
            (entries.diagnostics capacity (.insert key value))) := by
  have shows := follows.observed held
  have capacity_eq : cache.capacity = capacity := shows.capacity_eq
  by_cases zero : capacity = 0
  · refine ⟨cache.store, ?_, ?_⟩
    · rw [Lineup.inserted_of_capacity_eq_zero zero shows.fits]
      exact held
    · rw [insert, if_pos (capacity_eq.trans zero), Lineup.announcements, if_pos zero,
        Lineup.diagnostics, if_pos zero, Surroundings.after_nil,
        decide_eq_false (not_not_intro zero)]
      rfl
  · have asked := follows.afterFind held
    obtain ⟨next, known, inserted⟩ := follows.insert asked key value
    have stored := Lineup.lookup_inserted policy entries (Nat.pos_of_ne_zero zero) key value
    have writes : ∀ around : Surroundings ω,
        (write { cache with store := Observable.afterFind cache.store } key value).run around =
          ((true, { cache with store := Observable.afterPeek next }),
            around.after cache.callbacks [.arrival key value] []) := by
      intro around
      rw [write, Act.run_bind, run_changeStore known]
      exact run_announceArrival (follows.observed inserted) stored around
    refine ⟨Observable.afterPeek next, follows.afterPeek inserted, ?_⟩
    rw [insert_of_capacity_ne_zero (capacity_eq.trans_ne zero), shows.find_eq key,
      Lineup.announcements, if_neg zero, Lineup.diagnostics, if_neg zero, Lineup.departing,
      decide_eq_true zero]
    cases found : entries.lookup key with
    | some old => exact writes around
    | none =>
        change (announceEviction _ >>= fun _ => _).run around = _
        rw [Act.run_bind, run_announceEviction (follows.observed asked), writes,
          Surroundings.after_after, List.append_nil]
        rfl

theorem run_erase (held : holds cache.store entries) (key : κ) (around : Surroundings ω) :
    ∃ next, holds next (entries.without key) ∧
      (cache.erase key).run around =
        (((entries.lookup key).isSome, { cache with store := next }),
          around.after cache.callbacks (entries.announcements capacity (.erase key)) []) := by
  obtain ⟨next, known, erased⟩ := follows.erase held key
  refine ⟨next, erased, ?_⟩
  rw [erase, Act.run_bind, run_changeStore known, Lineup.announcements]
  cases entries.lookup key with
  | none =>
      rw [show (Option.map (Announcement.departure key) none).toList = [] from rfl,
        Surroundings.after_nil]
      rfl
  | some value =>
      have heard : around.after cache.callbacks [.departure key value] [] =
          { around with
            outside := ((cache.callbacks.onEvict key value).run around.outside).2 } := by
        simp [Surroundings.after, Announcement.hear]
      exact congrArg (Prod.mk _) heard.symm

omit follows [DecidableEq κ] in
/-- A question that the store answers reaches nobody else. -/
theorem run_question {request : Request κ ν} {reply : Reply κ ν} {next : σ}
    (answered : cache.perform request = pure (reply, { cache with store := next }))
    (around : Surroundings ω) :
    (cache.perform request).run around =
      ((reply, { cache with store := next }), around.after cache.callbacks [] []) := by
  rw [answered, Surroundings.after_nil]
  rfl

omit follows [DecidableEq κ] in
/-- The rest of a run goes on with what its first request leaves. -/
theorem run_cons {next : EvictingCache ω σ κ ν} {around later : Surroundings ω}
    {request : Request κ ν} {reply : Reply κ ν}
    (performed : (cache.perform request).run around = ((reply, next), later))
    (rest : List (Request κ ν)) :
    (cache.run (request :: rest)).run around =
      ((reply :: ((next.run rest).run later).1.1, ((next.run rest).run later).1.2),
        ((next.run rest).run later).2) := by
  rw [run, Act.run_bind, performed]
  rfl

omit follows [DecidableEq κ] in
/-- A run yields a reply for each request. -/
theorem length_replies (cache : EvictingCache ω σ κ ν) (around : Surroundings ω)
    (requests : List (Request κ ν)) :
    ((cache.run requests).run around).1.1.length = requests.length := by
  induction requests generalizing cache around with
  | nil => rfl
  | cons request rest inductionHypothesis =>
      obtain ⟨⟨⟨reply, next⟩, later⟩, performed⟩ :
          ∃ outcome, (cache.perform request).run around = outcome := ⟨_, rfl⟩
      rw [run_cons performed]
      exact congrArg (· + 1) (inductionHypothesis next later)

omit follows [DecidableEq κ] in
/-- Without capacity an insertion is refused and has no effect at all. -/
theorem run_perform_insert_of_capacity_eq_zero (zero : cache.capacity = 0) (key : κ) (value : ν)
    (around : Surroundings ω) :
    (cache.perform (.insert key value)).run around = ((.flag false, cache), around) := by
  rw [perform, Act.run_bind, insert, if_pos zero]
  rfl

/-- A request to a cache has the outcome that the entries of its store determine, and
the callbacks hear what they determine. -/
theorem run_perform (held : holds cache.store entries) (request : Request κ ν)
    (around : Surroundings ω) :
    ∃ next, holds next (entries.answer policy capacity (.request request)).2 ∧
      (cache.perform request).run around =
        ((entries.cacheReply policy capacity request, { cache with store := next }),
          around.after cache.callbacks (entries.announcements capacity request)
            (entries.diagnostics capacity request)) := by
  have shows := follows.observed held
  cases request with
  | insert key value =>
      obtain ⟨next, inserted, outcome⟩ := run_insert follows held key value around
      refine ⟨next, inserted, ?_⟩
      rw [perform, Act.run_bind, outcome]
      rfl
  | erase key =>
      obtain ⟨next, erased, outcome⟩ := run_erase follows held key around
      refine ⟨next, erased, ?_⟩
      rw [perform, Act.run_bind, outcome]
      rfl
  | get key =>
      obtain ⟨next, known, used⟩ := follows.get held key
      refine ⟨next, used, ?_⟩
      rw [perform, Act.run_bind, get, run_changeStore known]
      exact congrArg (Prod.mk _) (around.after_nil cache.callbacks).symm
  | clear =>
      obtain ⟨next, known, cleared⟩ := follows.clear held
      have emptied : (do return ((), ← Store.clear cache.store) : StateM ω (Unit × σ)) =
          pure ((), next) := by
        rw [known]
        rfl
      refine ⟨next, cleared, ?_⟩
      rw [perform, Act.run_bind, clear, Act.run_bind, run_changeStore emptied]
      exact congrArg (Prod.mk _) (around.after_nil cache.callbacks).symm
  | find key =>
      refine ⟨_, follows.afterFind held, run_question ?_ around⟩
      simp only [perform, find, shows.find_eq key]
      rfl
  | peek key =>
      refine ⟨_, follows.afterPeek held, run_question ?_ around⟩
      simp only [perform, peek, shows.peek_eq key]
      rfl
  | nextErasure =>
      refine ⟨cache.store, held, run_question ?_ around⟩
      rw [perform, shows.nextErasure_eq]
      rfl
  | size =>
      refine ⟨cache.store, held, run_question ?_ around⟩
      rw [perform, size, shows.size_eq]
      rfl
  | capacity =>
      refine ⟨cache.store, held, run_question ?_ around⟩
      rw [perform, EvictingCache.capacity, shows.capacity_eq]
      rfl
  | isEmpty =>
      refine ⟨cache.store, held, run_question ?_ around⟩
      rw [perform, isEmpty, shows.isEmpty_eq]
      rfl
  | isFull =>
      refine ⟨cache.store, held, run_question ?_ around⟩
      rw [perform, isFull, shows.isFull_eq]
      rfl

end EvictingCache

end GraphsAndCaches
