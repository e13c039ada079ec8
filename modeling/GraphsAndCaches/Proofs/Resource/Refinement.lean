import GraphsAndCaches.Proofs.Resource.Inventory
import GraphsAndCaches.Proofs.Resource.Ledger

/-!
# A resource cache is an inventory

The cache answers every run of requests as an inventory does. It yields the same replies, ends
with the same entries in the same order, and calls its handlers in the same order with the same
arguments, so that they are left in the same state. That the calls are the same is seen from
handlers under record, which are handlers like any other.
-/

namespace GraphsAndCaches

variable {ω κ τ : Type}

namespace ResourceCache

open Inventory

/-- Handlers are left as a teardown leaves them when they destroy entry after entry. -/
theorem run_destroyAll_outside (handlers : Handlers ω κ τ) (outside : ω)
    (entries : List (κ × τ)) :
    ((destroyAll handlers entries).run outside).2 =
      (teardown handlers outside entries).2 := by
  induction entries generalizing outside with
  | nil => rfl
  | cons entry rest inductionHypothesis =>
      rw [run_destroyAll_cons rfl rfl]
      exact inductionHypothesis _

variable [Ord κ]

section Entries

variable [Std.TransOrd κ] [Std.LawfulEqOrd κ] (entries : Std.TreeMap κ τ) (key : κ)

omit [Std.LawfulEqOrd κ] in
theorem ordered_toList : Ordered entries.toList := Std.TreeMap.ordered_keys_toList

theorem toList_insert (value : τ) :
    (entries.insert key value).toList = place key value entries.toList := by
  refine (ordered_toList _).eq_of_mem_iff ((ordered_toList entries).place key value) ?_
  rintro ⟨other, kept⟩
  rw [(ordered_toList entries).mem_place_iff, Std.TreeMap.mem_toList_iff_getElem?_eq_some,
    Std.TreeMap.mem_toList_iff_getElem?_eq_some, Std.TreeMap.getElem?_insert]
  by_cases same : key = other
  · subst same
    simp [eq_comm]
  · simp [same, Ne.symm same]

variable [DecidableEq κ]

theorem toList_erase : (entries.erase key).toList = without key entries.toList := by
  refine (ordered_toList _).eq_of_mem_iff (List.Pairwise.filter _ (ordered_toList entries)) ?_
  rintro ⟨other, kept⟩
  rw [without, List.mem_filter, Std.TreeMap.mem_toList_iff_getElem?_eq_some,
    Std.TreeMap.mem_toList_iff_getElem?_eq_some, Std.TreeMap.getElem?_erase]
  by_cases same : key = other
  · subst same
    simp
  · simp [same, Ne.symm same]

theorem lookup_toList : entries.toList.lookup key = entries[key]? := by
  cases found : entries.toList.lookup key with
  | none =>
      cases present : entries[key]? with
      | none => rfl
      | some value =>
          have member := Std.TreeMap.mem_toList_iff_getElem?_eq_some.mpr present
          simpa using List.lookup_eq_none_iff.mp found (key, value) member
  | some value =>
      obtain ⟨above, below, split, -⟩ := List.lookup_eq_some_iff.mp found
      have member : (key, value) ∈ entries.toList := by rw [split]; simp
      exact (Std.TreeMap.mem_toList_iff_getElem?_eq_some.mp member).symm

end Entries

/-- A cache that is cleared is left without entries, and its handlers as by a teardown. -/
theorem clear_empties (cache : ResourceCache ω κ τ) (around : Surroundings ω) :
    ∃ after, cache.clear.run around = (ofHandlers cache.handlers, after) ∧
      after.outside = (teardown cache.handlers around.outside cache.toList).2 :=
  ⟨_, run_clear rfl, run_destroyAll_outside cache.handlers around.outside cache.toList⟩

/-- So is one whose life ends. -/
theorem release_outside (cache : ResourceCache ω κ τ) (around : Surroundings ω) :
    (cache.release.run around).2.outside =
      (teardown cache.handlers around.outside cache.toList).2 := by
  obtain ⟨after, cleared, outside⟩ := clear_empties cache around
  rw [release, Act.run_bind, cleared]
  exact outside

/-- An act on a cache does what a turn of its inventory says. -/
def Follows {α : Type} (act : Act ω (α × ResourceCache ω κ τ)) (handlers : Handlers ω κ τ)
    (around : Surroundings ω) (turn : Turn ω κ τ α) : Prop :=
  ∃ next after, act.run around = ((turn.answer, next), after) ∧ next.handlers = handlers ∧
    next.toList = turn.inventory ∧ after.outside = turn.outside

section Steps

variable [Std.TransOrd κ] [Std.LawfulEqOrd κ]
variable (cache : ResourceCache ω κ τ) (key : κ) (around : Surroundings ω)

/-- A creation stores what it makes, if it makes something. -/
theorem create_stores {made : Option τ} {outside : ω}
    (making : (cache.handlers.create key).run around.outside = (made, outside)) :
    ∃ next after, (cache.create key).run around = ((made.isSome, next), after) ∧
      next.handlers = cache.handlers ∧ next.toList = stored key made cache.toList ∧
        next.entries[key]? = made.or cache.entries[key]? ∧ after.outside = outside := by
  cases made with
  | none => exact ⟨cache, _, run_create_of_failed making, rfl, rfl, rfl, rfl⟩
  | some value =>
      exact ⟨_, _, run_create making, rfl, toList_insert cache.entries key value,
        Std.TreeMap.getElem?_insert_self, rfl⟩

variable [DecidableEq κ]

/-- An erasure takes away the value that it destroys. -/
theorem erase_removes {value : τ} {verdict : Bool} {outside : ω}
    (present : cache.entries[key]? = some value)
    (destroying : (cache.handlers.destroy key value).run around.outside = (verdict, outside)) :
    ∃ next after, (cache.erase key).run around = ((verdict, next), after) ∧
      next.handlers = cache.handlers ∧ next.toList = without key cache.toList ∧
        after.outside = outside := by
  have entry : cache.find? key = some (key, value) := by
    rw [find?_eq_map, present, Option.map_some]
  exact ⟨_, _, run_erase entry destroying, rfl, toList_erase cache.entries key, rfl⟩

/-- A value is created where there is none, and where force makes room for it. -/
theorem put_follows (force : Bool) :
    Follows (cache.perform (.put key force)) cache.handlers around
      (answer cache.handlers around.outside cache.toList (.put key force)) := by
  have found : cache.toList.lookup key = cache.entries[key]? := lookup_toList cache.entries key
  cases present : cache.entries[key]? with
  | none =>
      obtain ⟨next, after, created, same, inventory, -, outside⟩ :=
        create_stores cache key around rfl
      simp only [answer, found, present]
      refine ⟨next, after, ?_, same, inventory, outside⟩
      rw [perform, Act.run_bind, put_of_absent (contains_eq_false_iff.mpr present), created]
      rfl
  | some value =>
      have contained := contains_of_getElem? present
      simp only [answer, found, present]
      cases force with
      | false =>
          refine ⟨cache, around, ?_, rfl, rfl, rfl⟩
          rw [perform, Act.run_bind, run_put_of_present contained]
          rfl
      | true =>
          -- The verdict on the old value is passed over: what counts is that its key is free.
          obtain ⟨bare, between, erased, handlers, cleared, torn⟩ :=
            erase_removes cache key around present rfl
          obtain ⟨next, after, created, same, inventory, -, outside⟩ :=
            create_stores bare key between rfl
          rw [handlers, torn] at outside
          refine ⟨next, after, ?_, same.trans handlers, ?_, outside⟩
          · rw [perform, Act.run_bind, run_put_of_forced contained, erased, created, handlers,
              torn]
            rfl
          · rw [inventory, cleared, handlers, torn]
            rfl

/-- A value that is made on demand is yielded as it is stored. -/
theorem get_follows :
    Follows (cache.perform (.get key)) cache.handlers around
      (answer cache.handlers around.outside cache.toList (.get key)) := by
  have found : cache.toList.lookup key = cache.entries[key]? := lookup_toList cache.entries key
  cases present : cache.entries[key]? with
  | none =>
      obtain ⟨next, after, created, same, inventory, value, outside⟩ :=
        create_stores cache key around rfl
      simp only [answer, found, present]
      refine ⟨next, after, ?_, same, inventory, outside⟩
      rw [perform, Act.run_bind, run_get_of_absent (contains_eq_false_iff.mpr present), created,
        value, present, Option.or_none]
      rfl
  | some value =>
      have contained := contains_of_getElem? present
      simp only [answer, found, present]
      refine ⟨cache, around, ?_, rfl, rfl, rfl⟩
      rw [perform, Act.run_bind, run_get_of_present contained, present]
      rfl

/-- The reply to an erasure is the verdict of the handler. -/
theorem erase_follows :
    Follows (cache.perform (.erase key)) cache.handlers around
      (answer cache.handlers around.outside cache.toList (.erase key)) := by
  have found : cache.toList.lookup key = cache.entries[key]? := lookup_toList cache.entries key
  cases present : cache.entries[key]? with
  | none =>
      simp only [answer, found, present]
      refine ⟨cache, around, ?_, rfl, rfl, rfl⟩
      rw [perform, Act.run_bind, run_erase_of_absent (find?_eq_none_iff.mpr present)]
      rfl
  | some value =>
      obtain ⟨next, after, erased, same, inventory, outside⟩ :=
        erase_removes cache key around present rfl
      simp only [answer, found, present]
      refine ⟨next, after, ?_, same, inventory, outside⟩
      rw [perform, Act.run_bind, erased]
      rfl

/-- One request is answered as from an inventory. -/
theorem perform_follows (request : Request κ) :
    Follows (cache.perform request) cache.handlers around
      (answer cache.handlers around.outside cache.toList request) := by
  have found (key : κ) : cache.toList.lookup key = cache.entries[key]? :=
    lookup_toList cache.entries key
  cases request with
  | put key force => exact put_follows cache key around force
  | get key => exact get_follows cache key around
  | erase key => exact erase_follows cache key around
  | clear =>
      obtain ⟨after, cleared, outside⟩ := clear_empties cache around
      refine ⟨ofHandlers cache.handlers, after, ?_, rfl, rfl, outside⟩
      rw [perform, Act.run_bind, cleared]
      rfl
  | contains key =>
      refine ⟨cache, around, ?_, rfl, rfl, rfl⟩
      rw [answer, found, ← Std.TreeMap.contains_eq_isSome_getElem?]
      rfl
  | size =>
      refine ⟨cache, around, ?_, rfl, rfl, rfl⟩
      rw [answer, toList, Std.TreeMap.length_toList]
      rfl
  | isEmpty =>
      refine ⟨cache, around, ?_, rfl, rfl, rfl⟩
      rw [answer, toList, Std.TreeMap.isEmpty_toList]
      rfl

/-- Requests are answered one after another as from an inventory. -/
theorem run_follows (requests : List (Request κ)) :
    Follows (cache.run requests) cache.handlers around
      (answers cache.handlers around.outside cache.toList requests) := by
  induction requests generalizing cache around with
  | nil => exact ⟨cache, around, rfl, rfl, rfl, rfl⟩
  | cons request rest inductionHypothesis =>
      obtain ⟨next, between, performed, handlers, inventory, outside⟩ :=
        perform_follows cache around request
      obtain ⟨last, after, run, sameHandlers, lastInventory, lastOutside⟩ :=
        inductionHypothesis next between
      rw [handlers, inventory, outside] at run lastInventory lastOutside
      refine ⟨last, after, ?_, sameHandlers.trans handlers, lastInventory, lastOutside⟩
      rw [ResourceCache.run, Act.run_bind, performed, Act.run_bind, run]
      rfl

/-- A key has a value in the cache when the inventory lists it. -/
theorem contains_eq_isSome_lookup (cache : ResourceCache ω κ τ) (key : κ) :
    cache.contains key = (cache.toList.lookup key).isSome := by
  rw [contains, toList, lookup_toList, Std.TreeMap.contains_eq_isSome_getElem?]

/-! What comes of requests to a cache without values is what comes of them to an inventory without
entries, up to the end of its life. -/

section Course

variable (handlers : Handlers ω κ τ) (outside : ω) (requests : List (Request κ))

theorem course_follows :
    Follows ((ofHandlers handlers).run requests) handlers { outside }
      (answers handlers outside [] requests) :=
  run_follows (ofHandlers handlers) { outside } requests

theorem replies_course :
    (course handlers outside requests).1.1 = (answers handlers outside [] requests).answer := by
  obtain ⟨cache, around, run, -⟩ := course_follows handlers outside requests
  rw [course, run]

theorem toList_course :
    (course handlers outside requests).1.2.toList =
      (answers handlers outside [] requests).inventory := by
  obtain ⟨cache, around, run, -, inventory, -⟩ := course_follows handlers outside requests
  rw [course, run]
  exact inventory

theorem outside_course :
    (course handlers outside requests).2.outside =
      (answers handlers outside [] requests).outside := by
  obtain ⟨cache, around, run, -, -, left⟩ := course_follows handlers outside requests
  rw [course, run]
  exact left

/-- At the end the handlers are left as by a teardown of the inventory. -/
theorem outside_ending :
    (ending handlers outside requests).outside =
      (teardown handlers (answers handlers outside [] requests).outside
        (answers handlers outside [] requests).inventory).2 := by
  obtain ⟨cache, around, run, handled, inventory, left⟩ :=
    course_follows handlers outside requests
  rw [ending, course, run]
  dsimp only
  rw [release_outside, handled, inventory, left]

/-- The record of the handlers holds the calls that the inventory tells. -/
theorem calls_eq :
    calls handlers outside requests = (answers handlers outside [] requests).calls := by
  rw [calls, outside_course, answers_recording, Turn.noted]
  simp

/-- At the end it holds those of the teardown as well. -/
theorem lifelongCalls_eq :
    lifelongCalls handlers outside requests =
      (answers handlers outside [] requests).calls ++
        (teardown handlers (answers handlers outside [] requests).outside
          (answers handlers outside [] requests).inventory).1 := by
  rw [lifelongCalls, outside_ending, answers_recording, Turn.noted, teardown_recording]
  simp

end Course

/-- Whatever the handlers answer and whatever is asked of a cache, it does what is read off
an inventory: it gives the same replies and keeps the same entries, and calls its handlers as
told, up to the end of its life, when the value of each entry that is left is destroyed in the
order of the keys. The keys that it lists are those of the inventory and always increase. -/
theorem run_eq_answers (handlers : Handlers ω κ τ) (outside : ω)
    (requests : List (Request κ)) :
    let expected := answers handlers outside [] requests
    let ending := teardown handlers expected.outside expected.inventory
    let plain := ((ofHandlers handlers).run requests).run { outside }
    let plainEnd := (plain.1.2.release.run plain.2).2
    let logged := ((ofHandlers handlers.recording).run requests).run { outside := { outside } }
    let loggedEnd := (logged.1.2.release.run logged.2).2
    (plain.1.1 = expected.answer ∧ plain.1.2.toList = expected.inventory ∧
        plain.2.outside = expected.outside ∧ plainEnd.outside = ending.2) ∧
      (logged.1.1 = expected.answer ∧ logged.1.2.toList = expected.inventory ∧
        logged.2.unrecorded.outside = expected.outside ∧
        logged.2.outside.calls.toList = expected.calls) ∧
      (loggedEnd.unrecorded.outside = ending.2 ∧
        loggedEnd.outside.calls.toList = expected.calls ++ ending.1 ∧
        ending.1.map torn? = expected.inventory.map some) ∧
      plain.1.2.keys = expected.inventory.map Prod.fst ∧
        plain.1.2.keys.Pairwise fun former latter => compare former latter = .lt := by
  intro expected ending plain plainEnd logged loggedEnd
  obtain ⟨cache, after, run, handled, inventory, left⟩ :
      Follows ((ofHandlers handlers).run requests) handlers { outside } expected :=
    run_follows (ofHandlers handlers) { outside } requests
  obtain ⟨loggedCache, loggedAfter, loggedRun, loggedHandled, loggedInventory, log⟩ :
      Follows ((ofHandlers handlers.recording).run requests) handlers.recording
        { outside := { outside } } (expected.noted { outside }) :=
    answers_recording handlers { outside } [] requests ▸
      run_follows (ofHandlers handlers.recording) { outside := { outside } } requests
  have plainEq : plain = ((expected.answer, cache), after) := run
  have loggedEq : logged = ((expected.answer, loggedCache), loggedAfter) := loggedRun
  have plainEndEq : plainEnd.outside = ending.2 := by
    simp only [plainEnd, plainEq]
    rw [release_outside, handled, inventory, left]
  have loggedEndEq : loggedEnd.outside =
      { outside := ending.2
        calls := (#[] : Array (HandlerCall κ τ)) ++ expected.calls ++ ending.1 } := by
    simp only [loggedEnd, loggedEq]
    rw [release_outside, loggedHandled, loggedInventory, log, teardown_recording]
    rfl
  rw [plainEq, loggedEq, Surroundings.unrecorded, Surroundings.unrecorded, loggedEndEq, log]
  refine ⟨⟨rfl, inventory, left, plainEndEq⟩,
    ⟨rfl, loggedInventory, rfl, Array.toList_appendList⟩,
    ⟨rfl, ?_, teardown_calls handlers expected.outside expected.inventory⟩, ?_,
    Std.TreeMap.ordered_keys⟩
  · simp
  · rw [← inventory, toList, Std.TreeMap.map_fst_toList_eq_keys]
    rfl

end Steps

/-- The value `0` is destroyed, although none can be made in its place. When the life of the
cache ends, a failed destruction does not keep it from the next one. -/
theorem faltering_run_eq_answers :
    Std.TransOrd Nat ∧ Std.LawfulEqOrd Nat ∧
      let logged := ((ofHandlers faltering.recording).run
        [.put 7 false, .put 7 true, .get 7, .put 8 false, .get 7]).run
          { outside := { outside := 0 } }
      logged.1.1 = [.flag true, .flag false, .value (some 2), .flag true, .value (some 2)] ∧
      (logged.1.2.release.run logged.2).2.outside.calls.toList =
        [.create 7 (some 0), .destroy 7 0 false, .create 7 none, .create 7 (some 2),
          .create 8 (some 3), .destroy 7 2 false, .destroy 8 3 true] := by
  obtain ⟨-, ⟨replies, -⟩, ⟨-, calls, -⟩, -⟩ :=
    run_eq_answers faltering 0 [.put 7 false, .put 7 true, .get 7, .put 8 false, .get 7]
  exact ⟨inferInstance, inferInstance, replies, calls⟩

end ResourceCache

end GraphsAndCaches
