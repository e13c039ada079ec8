import GraphsAndCaches.Resource.Recording

/-!
# What a resource cache does with its handlers

The effect of each operation of a resource cache, given the answers of its handlers: what
it answers, the entries that it leaves, the state in which the handlers are left, and the
diagnostics that it adds to the journal. The rest of the theory uses these laws and does
not look into the operations.

Handlers under record answer as they do without one and are left in the same state; the
record gets one call longer.
-/

namespace GraphsAndCaches

variable {ω κ τ : Type}

namespace ResourceCache

/-- Values are destroyed one after another, and each failure counts. -/
theorem run_destroyAll_cons {handlers : Handlers ω κ τ} {key : κ} {value : τ}
    {rest : List (κ × τ)} {before outside after : ω} {verdict : Bool} {failures : Nat}
    (first : (handlers.destroy key value).run before = (verdict, outside))
    (others : (destroyAll handlers rest).run outside = (failures, after)) :
    (destroyAll handlers ((key, value) :: rest)).run before =
      (if verdict then failures else failures + 1, after) := by
  have unfolded : (destroyAll handlers ((key, value) :: rest)).run before =
      (destroyAll handlers rest >>= fun failures =>
        return if ((handlers.destroy key value).run before).1 then failures
          else failures + 1).run ((handlers.destroy key value).run before).2 := rfl
  rw [unfolded, first, StateT.run_bind, others]
  rfl

variable [Ord κ] {cache : ResourceCache ω κ τ} {key kept : κ} {value : τ}
variable {around : Surroundings ω} {outside : ω} {verdict : Bool} {failures : Nat}

/-- The value of an erased key is gone whatever the verdict is. -/
theorem run_erase (present : cache.find? key = some (kept, value))
    (teardown : (cache.handlers.destroy kept value).run around.outside = (verdict, outside)) :
    (cache.erase key).run around =
      ((verdict, { cache with entries := cache.entries.erase key }),
        { outside
          journal := if verdict then around.journal
            else around.journal.push .destructionFailed }) := by
  rw [erase, present, Act.run_bind, Act.run_call, teardown]
  cases verdict <;> rfl

/-- Where there is nothing to destroy, an erasure calls nobody. -/
theorem run_erase_of_absent (absent : cache.find? key = none) (around : Surroundings ω) :
    (cache.erase key).run around = ((false, cache), around) := by
  rw [erase, absent]
  rfl

/-- A value that was made is stored. -/
theorem run_create
    (making : (cache.handlers.create key).run around.outside = (some value, outside)) :
    (cache.create key).run around =
      ((true, { cache with entries := cache.entries.insert key value }),
        { around with outside }) := by
  rw [create, Act.run_bind, Act.run_call, making]
  rfl

/-- When no value could be made, nothing is stored. -/
theorem run_create_of_failed
    (making : (cache.handlers.create key).run around.outside = (none, outside)) :
    (cache.create key).run around =
      ((false, cache),
        { outside, journal := around.journal.push (.creationFailed cache.size) }) := by
  rw [create, Act.run_bind, Act.run_call, making]
  rfl

/-- Where a value is kept, `put` calls nobody unless it is forced to. -/
theorem run_put_of_present (present : cache.contains key = true) (around : Surroundings ω) :
    (cache.put key false).run around = ((false, cache), around) := by
  rw [put, if_pos present]
  rfl

/-- A forced `put` erases what is kept, and then creates whatever the verdict was. -/
theorem run_put_of_forced (present : cache.contains key = true) (around : Surroundings ω) :
    (cache.put key true).run around =
      ((((cache.erase key).run around).1.2.create key).run
        ((cache.erase key).run around).2) := by
  rw [put, if_pos present, if_pos rfl, Act.run_bind]

/-- Where no value is kept, force makes no difference. -/
theorem put_of_absent (absent : cache.contains key = false) (force : Bool) :
    cache.put key force = cache.create key := by
  rw [put, absent, if_neg Bool.false_ne_true]

/-- A value that is kept is yielded, and nobody is called. -/
theorem run_get_of_present (present : cache.contains key = true) (around : Surroundings ω) :
    (cache.get key).run around = ((cache.entries[key]?, cache), around) := by
  rw [get, if_pos present]
  rfl

/-- A value that is not kept is created first. -/
theorem run_get_of_absent (absent : cache.contains key = false) (around : Surroundings ω) :
    (cache.get key).run around =
      ((((cache.create key).run around).1.2.entries[key]?,
        ((cache.create key).run around).1.2), ((cache.create key).run around).2) := by
  rw [get, absent, if_neg Bool.false_ne_true, put_of_absent absent, Act.run_bind]
  rfl

/-- A cache that is cleared keeps nothing, whatever the verdicts were. -/
theorem run_clear
    (teardown : (destroyAll cache.handlers cache.toList).run around.outside =
      (failures, outside)) :
    cache.clear.run around =
      (ofHandlers cache.handlers,
        { outside
          journal := if failures = 0 then around.journal
            else around.journal.push (.clearingFailed failures) }) := by
  rw [clear, Act.run_bind, Act.run_call, teardown]
  by_cases none : failures = 0
  · subst none
    rfl
  · rw [if_neg none, if_neg none]
    rfl

variable [Std.TransOrd κ]

/-- A key is absent when no value is found under it. -/
theorem contains_eq_false_iff : cache.contains key = false ↔ cache.entries[key]? = none := by
  rw [contains, Std.TreeMap.contains_eq_isSome_getElem?, Option.isSome_eq_false_iff,
    Option.isNone_iff_eq_none]

/-- A key is present when a value is found under it. -/
theorem contains_of_getElem? (present : cache.entries[key]? = some value) :
    cache.contains key = true := by
  rw [contains, Std.TreeMap.contains_eq_isSome_getElem?, present]
  rfl

/-- The entry of a key is the one that has its place among the entries. -/
theorem find?_eq_find?_toList (cache : ResourceCache ω κ τ) (key : κ) :
    cache.find? key = cache.toList.find? (compare ·.1 key == .eq) := by
  apply Option.ext
  rintro ⟨kept, value⟩
  rw [toList, Std.TreeMap.find?_toList_eq_some_iff_getKey?_eq_some_and_getElem?_eq_some]
  simp [find?, Option.bind_eq_some_iff]

/-- A key without an entry is one under which no value is found. -/
theorem find?_eq_none_iff : cache.find? key = none ↔ cache.entries[key]? = none := by
  rw [find?_eq_find?_toList, toList, Std.TreeMap.find?_toList_eq_none_iff_contains_eq_false]
  exact contains_eq_false_iff

/-- A key with an entry is present. -/
theorem contains_of_find? (present : cache.find? key = some (kept, value)) :
    cache.contains key = true := by
  rw [← Bool.not_eq_false, contains_eq_false_iff, ← find?_eq_none_iff, present]
  exact nofun

/-- What was erased is absent. -/
theorem absent_of_erase {next : ResourceCache ω κ τ} {after : Surroundings ω}
    (erased : (cache.erase key).run around = ((verdict, next), after)) :
    next.entries[key]? = none := by
  cases present : cache.find? key with
  | none =>
      rw [run_erase_of_absent present] at erased
      cases erased
      exact find?_eq_none_iff.mp present
  | some entry =>
      rw [run_erase present rfl] at erased
      cases erased
      exact Std.TreeMap.getElem?_erase_self

/-- When distinct keys have distinct places in the order, an entry is kept under the very key
that finds it. -/
theorem find?_eq_map [Std.LawfulEqOrd κ] (cache : ResourceCache ω κ τ) (key : κ) :
    cache.find? key = cache.entries[key]?.map (key, ·) := by
  cases present : cache.entries[key]? with
  | none => exact find?_eq_none_iff.mpr present
  | some value =>
      have kept := Std.TreeMap.getKey?_eq_some_of_contains (contains_of_getElem? present)
      rw [find?, kept, present]
      rfl

end ResourceCache

/-! ## Handlers under record -/

namespace Handlers

/-- A creation under record is the creation itself, written down with its outcome. -/
theorem run_recording_create (handlers : Handlers ω κ τ) (key : κ) (log : Supervised ω κ τ) :
    (handlers.recording.create key).run log =
      (((handlers.create key).run log.outside).1,
        { outside := ((handlers.create key).run log.outside).2
          calls := log.calls.push (.create key ((handlers.create key).run log.outside).1) }) :=
  rfl

/-- A destruction under record is the destruction itself, written down with its verdict. -/
theorem run_recording_destroy (handlers : Handlers ω κ τ) (key : κ) (value : τ)
    (log : Supervised ω κ τ) :
    (handlers.recording.destroy key value).run log =
      (((handlers.destroy key value).run log.outside).1,
        { outside := ((handlers.destroy key value).run log.outside).2
          calls := log.calls.push
            (.destroy key value ((handlers.destroy key value).run log.outside).1) }) :=
  rfl

end Handlers

/-- What lies around a cache, without the record of its handlers. -/
def Surroundings.unrecorded (around : Surroundings (Supervised ω κ τ)) : Surroundings ω where
  outside := around.outside.outside
  journal := around.journal

/-- The same cache with its handlers under record. -/
def ResourceCache.recording [Ord κ] (cache : ResourceCache ω κ τ) :
    ResourceCache (Supervised ω κ τ) κ τ where
  handlers := cache.handlers.recording
  entries := cache.entries

/-! ## The life of a cache -/

namespace ResourceCache

variable [Ord κ]

/-- What comes of requests to a cache that has no values at first. -/
def course (handlers : Handlers ω κ τ) (outside : ω) (requests : List (Request κ)) :
    (List (Reply κ τ) × ResourceCache ω κ τ) × Surroundings ω :=
  ((ofHandlers handlers).run requests).run { outside }

/-- What lies around such a cache when its life ends after the requests. -/
def ending (handlers : Handlers ω κ τ) (outside : ω) (requests : List (Request κ)) :
    Surroundings ω :=
  let ((_, cache), around) := course handlers outside requests
  (cache.release.run around).2

/-- The calls that the requests lead to, read off the record of the handlers. -/
def calls (handlers : Handlers ω κ τ) (outside : ω) (requests : List (Request κ)) :
    List (HandlerCall κ τ) :=
  (course handlers.recording { outside } requests).2.outside.calls.toList

/-- The calls of a whole life, with those at its end. -/
def lifelongCalls (handlers : Handlers ω κ τ) (outside : ω) (requests : List (Request κ)) :
    List (HandlerCall κ τ) :=
  (ending handlers.recording { outside } requests).outside.calls.toList

/-- One more request is carried out on the cache that the requests before it leave. -/
theorem run_concat (cache : ResourceCache ω κ τ) (requests : List (Request κ))
    (request : Request κ) (around : Surroundings ω) :
    (cache.run (requests ++ [request])).run around =
      let ((replies, next), between) := (cache.run requests).run around
      let ((reply, last), after) := (next.perform request).run between
      ((replies ++ [reply], last), after) := by
  induction requests generalizing cache around with
  | nil => rfl
  | cons first rest inductionHypothesis =>
      rw [List.cons_append, ResourceCache.run, Act.run_bind, Act.run_bind, inductionHypothesis]
      rfl

/-- The end of a life is as one more clearing. -/
theorem ending_eq (handlers : Handlers ω κ τ) (outside : ω) (requests : List (Request κ)) :
    ending handlers outside requests = (course handlers outside (requests ++ [.clear])).2 := by
  rw [ending, course, course, run_concat]
  rfl

end ResourceCache

end GraphsAndCaches
