import GraphsAndCaches.Proofs.Resource.Ledger
import Mathlib.Algebra.GroupWithZero.Nat

/-!
# Every failure of a handler is told once

A creation that fails is told at once, with the number of values that are held at that moment.
A destruction that fails is told at once when one value is erased, be it to make room for
another one. When a cache is cleared, failures are counted first and told together at the end.

The calls of the handlers say how many values are held after each of them. What the journal
tells is compared with the calls one by one. Between the calls of a clearing the journal lags
behind, so that an account of what is told has a number of failures that are still untold. It
is zero before and after every request.
-/

namespace GraphsAndCaches

variable {ω κ τ : Type}

/-! ## What is told -/

namespace Diagnostic

/-- The number of values that were held when a creation failed. -/
def resident? : Diagnostic → Option Nat
  | .creationFailed resident => some resident
  | _ => none

/-- The number of destructions that failed in a clearing. -/
def failures? : Diagnostic → Option Nat
  | .clearingFailed failures => some failures
  | _ => none

end Diagnostic

namespace HandlerCall

variable {calls : List (HandlerCall κ τ)} {call : HandlerCall κ τ}

def failedToCreate : HandlerCall κ τ → Bool
  | .create _ none => true
  | _ => false

def failedToDestroy : HandlerCall κ τ → Bool
  | .destroy _ _ false => true
  | _ => false

/-- The number of values that are held after a call. A destroyed value is gone whatever the
verdict is. -/
def heldAfter (held : Nat) : HandlerCall κ τ → Nat
  | .create _ (some _) => held + 1
  | .create _ none => held
  | .destroy _ _ _ => held - 1

/-- The number of values that are held after calls, when there were none at first. -/
def held (calls : List (HandlerCall κ τ)) : Nat := calls.foldl heldAfter 0

/-- The numbers of values that are held whenever a creation fails, beginning with some number. -/
def residentsFrom (held : Nat) : List (HandlerCall κ τ) → List Nat
  | [] => []
  | call :: rest =>
      let later := residentsFrom (heldAfter held call) rest
      if call.failedToCreate then held :: later else later

/-- The numbers of values that are held whenever a creation fails. -/
def residents (calls : List (HandlerCall κ τ)) : List Nat := residentsFrom 0 calls

theorem held_concat : held (calls ++ [call]) = heldAfter (held calls) call := List.foldl_concat ..

theorem residentsFrom_concat (first : Nat) :
    residentsFrom first (calls ++ [call]) =
      residentsFrom first calls ++
        if call.failedToCreate then [calls.foldl heldAfter first] else [] := by
  induction calls generalizing first with
  | nil => rfl
  | cons head rest inductionHypothesis =>
      rw [List.cons_append, residentsFrom, residentsFrom, inductionHypothesis]
      split <;> rfl

/-- One more call adds what is held before it, if it fails to create a value. -/
theorem residents_concat :
    residents (calls ++ [call]) =
      residents calls ++ if call.failedToCreate then [held calls] else [] :=
  residentsFrom_concat 0

/-- There is one number for each creation that fails. -/
theorem length_residentsFrom (first : Nat) :
    (residentsFrom first calls).length = calls.countP failedToCreate := by
  induction calls generalizing first with
  | nil => rfl
  | cons head rest inductionHypothesis =>
      rw [residentsFrom, List.countP_cons]
      split
      · rw [List.length_cons, inductionHypothesis]
      · rw [inductionHypothesis, Nat.add_zero]

end HandlerCall

open HandlerCall

/-- What a journal tells of calls that leave `count` values: all the failures, each of them once,
but for a number of failed destructions that are still untold. -/
structure Tells (journal : List Diagnostic) (calls : List (HandlerCall κ τ)) (count untold : Nat) :
    Prop where
  held : held calls = count
  creations : journal.filterMap Diagnostic.resident? = residents calls
  destructions : calls.countP failedToDestroy =
    journal.count .destructionFailed + (journal.filterMap Diagnostic.failures?).sum + untold
  clearings : .clearingFailed 0 ∉ journal

namespace Tells

variable {journal : List Diagnostic} {calls : List (HandlerCall κ τ)} {count untold : Nat}

theorem nothing : Tells [] ([] : List (HandlerCall κ τ)) 0 0 := ⟨rfl, rfl, rfl, List.not_mem_nil⟩

/-- A value that is made is one more, and nothing has to be told. -/
theorem created (tells : Tells journal calls count untold) (key : κ) (value : τ) :
    Tells journal (calls ++ [.create key (some value)]) (count + 1) untold where
  held := by rw [held_concat, tells.held, heldAfter]
  creations := by simp [residents_concat, tells.creations, failedToCreate]
  destructions := by simp [tells.destructions, failedToDestroy]
  clearings := tells.clearings

/-- A creation that fails is told with the number of values at that moment. -/
theorem failed (tells : Tells journal calls count untold) (key : κ) :
    Tells (journal ++ [.creationFailed count]) (calls ++ [.create key none]) count untold where
  held := by rw [held_concat, tells.held, heldAfter]
  creations := by
    simp [residents_concat, tells.creations, tells.held, failedToCreate, Diagnostic.resident?]
  destructions := by
    simp [tells.destructions, failedToDestroy, List.filterMap_cons, Diagnostic.failures?]
  clearings := by simp [tells.clearings]

/-- A failed destruction is untold at first. -/
theorem destroyed (tells : Tells journal calls count untold) (key : κ) (value : τ)
    (verdict : Bool) :
    Tells journal (calls ++ [.destroy key value verdict]) (count - 1)
      (if verdict then untold else untold + 1) where
  held := by rw [held_concat, tells.held, heldAfter]
  creations := by simp [residents_concat, tells.creations, failedToCreate]
  destructions := by cases verdict <;> simp [tells.destructions, failedToDestroy, Nat.add_assoc]
  clearings := tells.clearings

/-- One failed destruction may be told by itself. -/
theorem tell (tells : Tells journal calls count (untold + 1)) :
    Tells (journal ++ [.destructionFailed]) calls count untold where
  held := tells.held
  creations := by simp [tells.creations, Diagnostic.resident?]
  destructions := by
    have others : (journal ++ [Diagnostic.destructionFailed]).filterMap Diagnostic.failures? =
        journal.filterMap Diagnostic.failures? := by
      rw [List.filterMap_append]
      exact List.append_nil _
    rw [tells.destructions, others, List.count_append, List.count_singleton_self]
    omega
  clearings := by simp [tells.clearings]

/-- All that are untold may be told together, but silence tells that there are none. -/
theorem tellAll (tells : Tells journal calls count untold) :
    Tells (if untold = 0 then journal else journal ++ [.clearingFailed untold]) calls count 0 := by
  split
  · next nothing => exact nothing ▸ tells
  · next something =>
      refine ⟨tells.held, ?_, ?_, ?_⟩
      · simp [tells.creations, Diagnostic.resident?]
      · simp [tells.destructions, Diagnostic.failures?, Nat.add_assoc]
      · simp [tells.clearings, Ne.symm something]

end Tells

/-! ## The cache and its journal -/

namespace ResourceCache

/-- While values are destroyed one after another, nothing is told and every failure counts. -/
theorem destroyAll_tells (handlers : Handlers ω κ τ) (entries : List (κ × τ))
    (log : Supervised ω κ τ) {journal : List Diagnostic} {untold : Nat}
    (tells : Tells journal log.calls.toList entries.length untold) :
    ∃ failures after, (destroyAll handlers.recording entries).run log = (failures, after) ∧
      Tells journal after.calls.toList 0 (untold + failures) := by
  induction entries generalizing log untold with
  | nil => exact ⟨0, log, rfl, tells⟩
  | cons entry rest inductionHypothesis =>
      obtain ⟨key, value⟩ := entry
      have written := handlers.run_recording_destroy key value log
      rcases destroying : (handlers.destroy key value).run log.outside with ⟨verdict, outside⟩
      rw [destroying] at written
      have next := tells.destroyed key value verdict
      rw [← Array.toList_push, List.length_cons, Nat.add_sub_cancel] at next
      obtain ⟨failures, after, others, told⟩ :=
        inductionHypothesis { outside, calls := log.calls.push (.destroy key value verdict) } next
      refine ⟨_, after, run_destroyAll_cons written others, ?_⟩
      cases verdict with
      | true => exact told
      | false =>
          simpa only [if_neg Bool.false_ne_true, Nat.add_assoc, Nat.add_comm 1] using told

variable [Ord κ]

/-- The journal tells of all calls so far, which leave the entries of the cache. -/
def Informs (cache : ResourceCache ω κ τ) (around : Surroundings (Supervised ω κ τ)) : Prop :=
  Tells around.journal.toList around.outside.calls.toList cache.size 0

/-- An act on a cache under record tells what fails on the way. -/
def KeepsInformed {α : Type}
    (act : Act (Supervised ω κ τ) (α × ResourceCache (Supervised ω κ τ) κ τ))
    (around : Surroundings (Supervised ω κ τ)) : Prop :=
  ∃ answer, ∃ next : ResourceCache ω κ τ, ∃ after,
    act.run around = ((answer, next.recording), after) ∧ next.Informs after

/-- The reply to a request may be made of the answer. -/
theorem KeepsInformed.reply {α β : Type}
    {act : Act (Supervised ω κ τ) (α × ResourceCache (Supervised ω κ τ) κ τ)}
    {around : Surroundings (Supervised ω κ τ)} (keeps : KeepsInformed act around)
    (render : α → β) :
    KeepsInformed (do let (answer, cache) ← act; return (render answer, cache)) around := by
  obtain ⟨answer, next, after, run, informs⟩ := keeps
  refine ⟨render answer, next, after, ?_, informs⟩
  rw [Act.run_bind, run]
  rfl

section Steps

variable [Std.TransOrd κ] {cache : ResourceCache ω κ τ}
  {around : Surroundings (Supervised ω κ τ)}

/-- An erasure tells of the destruction that it makes. -/
theorem Informs.erase (informs : cache.Informs around) (key : κ) :
    KeepsInformed (cache.recording.erase key) around := by
  cases present : cache.find? key with
  | none =>
      have absent : cache.recording.find? key = none := present
      exact ⟨false, cache, around, run_erase_of_absent absent around, informs⟩
  | some entry =>
      obtain ⟨kept, value⟩ := entry
      have size : (cache.entries.erase key).size = cache.size - 1 :=
        Std.TreeMap.size_erase.trans (if_pos (contains_of_find? present))
      have written := cache.handlers.run_recording_destroy kept value around.outside
      rcases destroying : (cache.handlers.destroy kept value).run around.outside.outside
        with ⟨verdict, outside⟩
      rw [destroying] at written
      refine ⟨verdict, { cache with entries := cache.entries.erase key }, _,
        run_erase present written, ?_⟩
      have told := Tells.destroyed informs kept value verdict
      rw [Informs, ResourceCache.size, size]
      cases verdict with
      | true =>
          rw [Array.toList_push]
          exact told
      | false =>
          rw [if_neg Bool.false_ne_true, Array.toList_push, Array.toList_push]
          exact told.tell

/-- A creation tells when it fails. -/
theorem Informs.create (informs : cache.Informs around) {key : κ}
    (absent : cache.entries[key]? = none) :
    KeepsInformed (cache.recording.create key) around := by
  have written := cache.handlers.run_recording_create key around.outside
  cases making : (cache.handlers.create key).run around.outside.outside with
  | mk made outside =>
      rw [making] at written
      cases made with
      | none =>
          refine ⟨false, cache, _, run_create_of_failed written, ?_⟩
          rw [Informs, Array.toList_push, Array.toList_push]
          exact Tells.failed informs key
      | some value =>
          have size : (cache.entries.insert key value).size = cache.size + 1 :=
            Std.TreeMap.size_insert.trans
              (if_neg (Bool.eq_false_iff.mp (contains_eq_false_iff.mpr absent)))
          refine ⟨true, { cache with entries := cache.entries.insert key value }, _,
            run_create written, ?_⟩
          rw [Informs, ResourceCache.size, size, Array.toList_push]
          exact Tells.created informs key value

/-- A forced creation tells of the destruction that makes room for it, and then of itself. -/
theorem Informs.put (informs : cache.Informs around) (key : κ) (force : Bool) :
    KeepsInformed (cache.recording.put key force) around := by
  have same : cache.recording.contains key = cache.contains key := rfl
  cases present : cache.contains key with
  | false =>
      rw [put_of_absent (same.trans present)]
      exact informs.create (contains_eq_false_iff.mp present)
  | true =>
      cases force with
      | false =>
          exact ⟨false, cache, around, run_put_of_present (same.trans present) around, informs⟩
      | true =>
          -- The old value no longer counts as held when the creation fails.
          obtain ⟨verdict, next, middle, erased, informs⟩ := informs.erase key
          have absent : next.recording.entries[key]? = none := absent_of_erase erased
          obtain ⟨stored, last, after, created, informs⟩ := informs.create absent
          refine ⟨stored, last, after, ?_, informs⟩
          rw [run_put_of_forced (same.trans present), erased, created]

/-- A creation on the way to a value tells when it fails. -/
theorem Informs.get (informs : cache.Informs around) (key : κ) :
    KeepsInformed (cache.recording.get key) around := by
  have same : cache.recording.contains key = cache.contains key := rfl
  cases present : cache.contains key with
  | false =>
      obtain ⟨stored, next, after, created, informs⟩ :=
        informs.create (contains_eq_false_iff.mp present)
      refine ⟨next.entries[key]?, next, after, ?_, informs⟩
      rw [run_get_of_absent (same.trans present), created]
      rfl
  | true =>
      exact ⟨cache.entries[key]?, cache, around,
        run_get_of_present (same.trans present) around, informs⟩

omit [Std.TransOrd κ] in
/-- A clearing tells of all its destructions that fail, at the end. -/
theorem Informs.clear (informs : cache.Informs around) :
    ∃ after, cache.recording.clear.run around = ((ofHandlers cache.handlers).recording, after) ∧
      (ofHandlers cache.handlers).Informs after := by
  have listed : cache.toList.length = cache.size := Std.TreeMap.length_toList
  have tells : Tells around.journal.toList around.outside.calls.toList cache.toList.length 0 := by
    rw [listed]
    exact informs
  obtain ⟨failures, log, destroying, told⟩ :=
    destroyAll_tells cache.handlers cache.toList around.outside tells
  refine ⟨_, run_clear destroying, ?_⟩
  rw [Nat.zero_add] at told
  rw [Informs, apply_ite Array.toList, Array.toList_push]
  exact told.tellAll

/-- Every request tells what fails on the way. -/
theorem Informs.perform (informs : cache.Informs around) (request : Request κ) :
    KeepsInformed (cache.recording.perform request) around := by
  cases request with
  | put key force => exact (informs.put key force).reply Reply.flag
  | get key => exact (informs.get key).reply Reply.value
  | erase key => exact (informs.erase key).reply Reply.flag
  | clear =>
      obtain ⟨after, cleared, informs⟩ := informs.clear
      refine ⟨.done, ofHandlers cache.handlers, after, ?_, informs⟩
      rw [ResourceCache.perform, Act.run_bind, cleared]
      rfl
  | contains key => exact ⟨.flag (cache.contains key), cache, around, rfl, informs⟩
  | size => exact ⟨.count cache.size, cache, around, rfl, informs⟩
  | isEmpty => exact ⟨.flag cache.isEmpty, cache, around, rfl, informs⟩

/-- So does every run of requests, by induction on what is still to be asked. -/
theorem Informs.run (informs : cache.Informs around) (requests : List (Request κ)) :
    KeepsInformed (cache.recording.run requests) around := by
  induction requests generalizing cache around with
  | nil => exact ⟨[], cache, around, rfl, informs⟩
  | cons request rest inductionHypothesis =>
      obtain ⟨reply, next, middle, performed, informs⟩ := informs.perform request
      obtain ⟨replies, last, after, run, informs⟩ := inductionHypothesis informs
      refine ⟨reply :: replies, last, after, ?_, informs⟩
      rw [ResourceCache.run, Act.run_bind, performed, Act.run_bind, run]
      rfl

end Steps

/-! ## The life of a cache -/

/-- A clearing adds at most one diagnostic to the journal. -/
theorem run_perform_clear (cache : ResourceCache ω κ τ) (around : Surroundings ω) :
    ∃ failures after,
      (cache.perform .clear).run around = ((.done, ofHandlers cache.handlers), after) ∧
        after.journal.toList =
          around.journal.toList ++ if failures = 0 then [] else [.clearingFailed failures] := by
  rcases destroying : (destroyAll cache.handlers cache.toList).run around.outside
    with ⟨failures, outside⟩
  have cleared := run_clear destroying
  refine ⟨failures, (cache.clear.run around).2, ?_, ?_⟩
  · rw [perform, Act.run_bind, cleared]
    rfl
  · rw [cleared, apply_ite Array.toList, Array.toList_push]
    split
    · exact (List.append_nil _).symm
    · rfl

/-- So it is when the clearing comes after other requests, and no values are left by it. -/
theorem course_clear (handlers : Handlers ω κ τ) (outside : ω) (requests : List (Request κ)) :
    (course handlers outside (requests ++ [.clear])).1.2.size = 0 ∧
      ∃ failures,
        (course handlers outside (requests ++ [.clear])).2.journal.toList =
          (course handlers outside requests).2.journal.toList ++
            if failures = 0 then [] else [.clearingFailed failures] := by
  rcases run : ((ofHandlers handlers).run requests).run { outside }
    with ⟨⟨replies, cache⟩, between⟩
  obtain ⟨failures, after, cleared, told⟩ := run_perform_clear cache between
  simp only [course, run_concat, run, cleared]
  exact ⟨rfl, failures, told⟩

section Course

variable [Std.TransOrd κ] [Std.LawfulEqOrd κ] [DecidableEq κ]

/-- Under record a cache goes the same way, with the same journal. -/
theorem course_recording (handlers : Handlers ω κ τ) (outside : ω)
    (requests : List (Request κ)) :
    (course handlers.recording { outside } requests).2.journal =
        (course handlers outside requests).2.journal ∧
      (course handlers.recording { outside } requests).1.2.size =
        (course handlers outside requests).1.2.size := by
  have start : (ofHandlers handlers).Accounted { outside := { outside } } :=
    accounted_of_settled Balanced.empty
  obtain ⟨replies, cache, after, recorded, run, -⟩ := start.run requests
  have recordedEq : course handlers.recording { outside } requests =
    ((replies, cache.recording), after) := recorded
  have plainEq : course handlers outside requests = ((replies, cache), after.unrecorded) := run
  rw [recordedEq, plainEq]
  exact ⟨rfl, rfl⟩

/-- After every run of requests all failures are told. -/
theorem course_tells (handlers : Handlers ω κ τ) (outside : ω) (requests : List (Request κ)) :
    Tells (course handlers outside requests).2.journal.toList (calls handlers outside requests)
      (course handlers outside requests).1.2.size 0 := by
  have start : (ofHandlers handlers).Informs { outside := { outside } } := Tells.nothing
  obtain ⟨replies, cache, after, run, informs⟩ := start.run requests
  have recordedEq : course handlers.recording { outside } requests =
    ((replies, cache.recording), after) := run
  obtain ⟨journal, size⟩ := course_recording handlers outside requests
  rw [← journal, ← size, calls, recordedEq]
  exact informs

/-- No failure of a handler stays untold, and none is told twice. After every run of requests,
and at the end of the life of the cache, the journal has one diagnostic for each creation that
failed, with the number of values that were held at that moment. The destructions that failed
are as many as the diagnostics of single ones together with the failures that the diagnostics of
clearings count, none of which counts nothing. A clearing, and the end of the life likewise,
adds at most one diagnostic. -/
theorem failures_told_once (handlers : Handlers ω κ τ) (outside : ω)
    (requests : List (Request κ)) :
    let run := course handlers outside requests
    let cleared := course handlers outside (requests ++ [.clear])
    let ended := ending handlers outside requests
    Tells run.2.journal.toList (calls handlers outside requests) run.1.2.size 0 ∧
      Tells ended.journal.toList (lifelongCalls handlers outside requests) 0 0 ∧
      (ended.journal.toList.filterMap Diagnostic.resident?).length =
        (lifelongCalls handlers outside requests).countP failedToCreate ∧
      (∃ failures, cleared.2.journal.toList =
        run.2.journal.toList ++ if failures = 0 then [] else [.clearingFailed failures]) ∧
      ∃ failures, ended.journal.toList =
        run.2.journal.toList ++ if failures = 0 then [] else [.clearingFailed failures] := by
  intro run cleared ended
  obtain ⟨size, once⟩ := course_clear handlers outside requests
  have endedEq : ended = cleared.2 := ending_eq handlers outside requests
  have callsEq : lifelongCalls handlers outside requests =
      calls handlers outside (requests ++ [.clear]) := by
    rw [lifelongCalls, calls, ending_eq]
  have told : Tells ended.journal.toList (lifelongCalls handlers outside requests) 0 0 := by
    have tells := course_tells handlers outside (requests ++ [.clear])
    rw [size] at tells
    rwa [endedEq, callsEq]
  refine ⟨course_tells handlers outside requests, told, ?_, once, endedEq ▸ once⟩
  rw [told.creations, residents, length_residentsFrom]

end Course

/-- A creation fails while one value is held, a replaced value cannot be destroyed, and neither
can one of the two that are left at the end. -/
theorem faltering_told_once :
    Std.TransOrd Nat ∧ Std.LawfulEqOrd Nat ∧
      let requests : List (Request Nat) := [.put 7 false, .get 8, .get 8, .put 7 true]
      (ending faltering 0 requests).journal.toList =
          [.creationFailed 1, .destructionFailed, .clearingFailed 1] ∧
        residents (lifelongCalls faltering 0 requests) = [1] ∧
        (lifelongCalls faltering 0 requests).countP failedToDestroy = 2 := by
  obtain ⟨-, told, -⟩ := failures_told_once faltering 0 [.put 7 false, .get 8, .get 8, .put 7 true]
  have journal : (ending faltering 0
      [.put 7 false, .get 8, .get 8, .put 7 true]).journal.toList =
        [.creationFailed 1, .destructionFailed, .clearingFailed 1] := by decide +kernel
  rw [journal] at told
  exact ⟨inferInstance, inferInstance, journal, told.creations.symm, told.destructions⟩

end ResourceCache

end GraphsAndCaches
