import GraphsAndCaches.Proofs.Resource.ResourceCache
import Mathlib.Data.List.Nodup
import Mathlib.Logic.Function.Basic

/-!
# Every value that is created is destroyed once

The calls of the handlers of a resource cache are a ledger. For each key, its history
lists the values that were created under the key and those that were destroyed, and
leaves out what failed to be created. In a balanced ledger every history alternates
between a creation and the destruction of the created value, and the values that are not
destroyed yet are those that are held.

The cache keeps its ledger balanced with its entries: a creation is asked for only where
nothing is held, and a destruction gets the value that is held. Neither the verdict of a
destruction nor a failed creation matters to this, not even one that follows the
destruction of the value it was to replace. When the life of the cache ends, nothing is
held any more.
-/

namespace GraphsAndCaches

variable {ω κ τ : Type}

/-- What happened to a value of some key. -/
inductive KeyEvent (τ : Type) where
  | created (value : τ)
  | destroyed (value : τ)
deriving DecidableEq, Repr

/-- Each value is destroyed before the next one is created, and what is destroyed is the
value that was created just before. The value that is not destroyed yet is left. -/
inductive Alternates : List (KeyEvent τ) → Option τ → Prop where
  | nothing : Alternates [] none
  | held (value : τ) : Alternates [.created value] (some value)
  | cycle {events : List (KeyEvent τ)} {left : Option τ} (value : τ)
      (rest : Alternates events left) :
      Alternates (.created value :: .destroyed value :: events) left

namespace Alternates

variable {events : List (KeyEvent τ)} {value : τ}

/-- Where nothing is left, a value may be created. -/
theorem create (alternates : Alternates events none) (value : τ) :
    Alternates (events ++ [.created value]) (some value) := by
  generalize left : none = rest at alternates
  induction alternates with
  | nothing => exact .held value
  | held other => cases left
  | cycle other _ inductionHypothesis => exact .cycle other (inductionHypothesis left)

/-- The value that is left may be destroyed. -/
theorem destroy (alternates : Alternates events (some value)) :
    Alternates (events ++ [.destroyed value]) none := by
  generalize left : some value = rest at alternates
  induction alternates with
  | nothing => cases left
  | held other =>
      cases left
      exact .cycle value .nothing
  | cycle other _ inductionHypothesis => exact .cycle other (inductionHypothesis left)

end Alternates

/-! ## Ledgers -/

section Ledger

variable [DecidableEq κ]

namespace HandlerCall

/-- What a call means for the values of a key. -/
def event? (key : κ) : HandlerCall κ τ → Option (KeyEvent τ)
  | .create other (some value) => if other = key then some (.created value) else none
  | .create _ none => none
  | .destroy other value _ => if other = key then some (.destroyed value) else none

/-- What happened to the values of a key in the course of some calls. -/
def history (key : κ) (calls : List (HandlerCall κ τ)) : List (KeyEvent τ) :=
  calls.filterMap (event? key)

theorem history_concat (key : κ) (calls : List (HandlerCall κ τ)) (call : HandlerCall κ τ) :
    history key (calls ++ [call]) = history key calls ++ (call.event? key).toList := by
  rw [history, List.filterMap_append, List.filterMap_cons, List.filterMap_nil]
  cases call.event? key <;> rfl

/-- The history of every key alternates, and what is left of it is what is held. -/
def Balanced (calls : List (HandlerCall κ τ)) (held : κ → Option τ) : Prop :=
  ∀ key, Alternates (history key calls) (held key)

namespace Balanced

variable {calls : List (HandlerCall κ τ)} {held : κ → Option τ} {key : κ} {value : τ}

theorem empty : Balanced ([] : List (HandlerCall κ τ)) fun _ => none := fun _ => .nothing

/-- A value may be created under a key that holds none. -/
theorem created (balanced : Balanced calls held) (absent : held key = none) (value : τ) :
    Balanced (calls ++ [.create key (some value)]) (Function.update held key (some value)) := by
  intro other
  rw [history_concat, Function.update_apply, event?]
  by_cases same : other = key
  · subst same
    rw [if_pos rfl, if_pos rfl]
    exact (absent ▸ balanced other).create value
  · rw [if_neg same, if_neg (Ne.symm same), Option.toList_none, List.append_nil]
    exact balanced other

/-- A failed creation is of no account. -/
theorem failed (balanced : Balanced calls held) (key : κ) :
    Balanced (calls ++ [.create key none]) held := by
  intro other
  rw [history_concat, event?, Option.toList_none, List.append_nil]
  exact balanced other

/-- The value that a key holds may be destroyed, whatever comes of it. -/
theorem destroyed (balanced : Balanced calls held) (present : held key = some value)
    (verdict : Bool) :
    Balanced (calls ++ [.destroy key value verdict]) (Function.update held key none) := by
  intro other
  rw [history_concat, Function.update_apply, event?]
  by_cases same : other = key
  · subst same
    rw [if_pos rfl, if_pos rfl]
    exact (present ▸ balanced other).destroy
  · rw [if_neg same, if_neg (Ne.symm same), Option.toList_none, List.append_nil]
    exact balanced other

end Balanced

end HandlerCall

end Ledger

/-! ## The cache and its ledger -/

namespace ResourceCache

open HandlerCall

variable [DecidableEq κ]

/-- Values that are all destroyed, each under its key, leave nothing to account for. The
induction is on the values that are still held. -/
theorem destroyAll_accounted (handlers : Handlers ω κ τ) (pending : List (κ × τ))
    (log : Supervised ω κ τ) (held : κ → Option τ) (balanced : Balanced log.calls.toList held)
    (distinct : (pending.map Prod.fst).Nodup)
    (listed : ∀ key value, (key, value) ∈ pending ↔ held key = some value) :
    ∃ failures after,
      (destroyAll handlers.recording pending).run log = (failures, after) ∧
        (destroyAll handlers pending).run log.outside = (failures, after.outside) ∧
          Balanced after.calls.toList fun _ => none := by
  induction pending generalizing log held with
  | nil =>
      have nothing : held = fun _ => none := by
        funext key
        cases present : held key with
        | none => rfl
        | some value => cases (listed key value).mpr present
      exact ⟨0, log, rfl, rfl, nothing ▸ balanced⟩
  | cons entry rest inductionHypothesis =>
      obtain ⟨key, value⟩ := entry
      obtain ⟨fresh, distinct⟩ := List.nodup_cons.mp distinct
      have present : held key = some value := (listed key value).mp List.mem_cons_self
      obtain ⟨⟨verdict, outside⟩, destroying⟩ :
          ∃ teardown, (handlers.destroy key value).run log.outside = teardown := ⟨_, rfl⟩
      have written := handlers.run_recording_destroy key value log
      rw [destroying] at written
      have settling := balanced.destroyed present verdict
      rw [← Array.toList_push] at settling
      have remaining : ∀ other kept, (other, kept) ∈ rest ↔
          Function.update held key none other = some kept := by
        intro other kept
        rw [Function.update_apply]
        by_cases same : other = key
        · subst same
          rw [if_pos rfl]
          exact ⟨fun member => (fresh (List.mem_map.mpr ⟨_, member, rfl⟩)).elim, nofun⟩
        · rw [if_neg same, ← listed, List.mem_cons, Prod.mk.injEq]
          exact ⟨.inr, fun member => member.resolve_left fun equal => same equal.1⟩
      obtain ⟨failures, after, recorded, run, settled⟩ :=
        inductionHypothesis { outside, calls := log.calls.push (.destroy key value verdict) }
          _ settling distinct remaining
      exact ⟨_, after, run_destroyAll_cons written recorded,
        run_destroyAll_cons destroying run, settled⟩

variable [Ord κ]

/-- The ledger is balanced with the entries of the cache: each value that was created was
destroyed, or else it is held. -/
def Accounted (cache : ResourceCache ω κ τ) (around : Surroundings (Supervised ω κ τ)) : Prop :=
  Balanced around.outside.calls.toList fun key => cache.entries[key]?

/-- An act under record answers what it answers without, leaves the same cache and the same
surroundings, and all the values of the cache are accounted for. -/
def KeepsAccount {α : Type} (act : Act ω (α × ResourceCache ω κ τ))
    (recorded : Act (Supervised ω κ τ) (α × ResourceCache (Supervised ω κ τ) κ τ))
    (around : Surroundings (Supervised ω κ τ)) : Prop :=
  ∃ answer next after,
    recorded.run around = ((answer, next.recording), after) ∧
      act.run around.unrecorded = ((answer, next), after.unrecorded) ∧ next.Accounted after

/-- The reply to a request may be made of the answer. -/
theorem KeepsAccount.reply {α β : Type} {act : Act ω (α × ResourceCache ω κ τ)}
    {recorded : Act (Supervised ω κ τ) (α × ResourceCache (Supervised ω κ τ) κ τ)}
    {around : Surroundings (Supervised ω κ τ)}
    (kept : KeepsAccount act recorded around) (render : α → β) :
    KeepsAccount (do let (answer, cache) ← act; return (render answer, cache))
      (do let (answer, cache) ← recorded; return (render answer, cache)) around := by
  obtain ⟨answer, next, after, recordedRun, run, accounted⟩ := kept
  refine ⟨render answer, next, after, ?_, ?_, accounted⟩
  · rw [Act.run_bind, recordedRun]
    rfl
  · rw [Act.run_bind, run]
    rfl

variable [Std.TransOrd κ]

/-- When no value is left in the ledger, a cache without values is accounted. -/
theorem accounted_of_settled {handlers : Handlers ω κ τ}
    {around : Surroundings (Supervised ω κ τ)}
    (settled : Balanced around.outside.calls.toList fun _ => none) :
    (ofHandlers handlers).Accounted around := by
  have nothing : (fun key => (ofHandlers handlers).entries[key]?) = fun _ => none :=
    funext fun _ => Std.TreeMap.getElem?_emptyc
  rw [Accounted, nothing]
  exact settled

variable [Std.LawfulEqOrd κ]

/-- An insertion reaches the entry of its own key. -/
theorem getElem?_insert_eq_update (entries : Std.TreeMap κ τ) (key : κ) (value : τ) :
    (fun other => (entries.insert key value)[other]?) =
      Function.update (fun other => entries[other]?) key (some value) := by
  funext other
  rw [Std.TreeMap.getElem?_insert, Function.update_apply]
  simp only [Std.compare_eq_iff_eq, eq_comm (a := other)]

/-- An erasure reaches the entry of its own key. -/
theorem getElem?_erase_eq_update (entries : Std.TreeMap κ τ) (key : κ) :
    (fun other => (entries.erase key)[other]?) =
      Function.update (fun other => entries[other]?) key none := by
  funext other
  rw [Std.TreeMap.getElem?_erase, Function.update_apply]
  simp only [Std.compare_eq_iff_eq, eq_comm (a := other)]

section Steps

variable {cache : ResourceCache ω κ τ} {around : Surroundings (Supervised ω κ τ)}

/-- An erasure destroys the value that it takes away. -/
theorem Accounted.erase (accounted : cache.Accounted around) (key : κ) :
    KeepsAccount (cache.erase key) (cache.recording.erase key) around := by
  have entry := cache.find?_eq_map key
  have same : cache.recording.find? key = cache.find? key := rfl
  cases present : cache.entries[key]? with
  | none =>
      rw [present, Option.map_none] at entry
      exact ⟨false, cache, around, run_erase_of_absent (same.trans entry) around,
        run_erase_of_absent entry around.unrecorded, accounted⟩
  | some value =>
      rw [present, Option.map_some] at entry
      refine ⟨_, { cache with entries := cache.entries.erase key }, _,
        run_erase (same.trans entry)
          (cache.handlers.run_recording_destroy key value around.outside),
        run_erase entry rfl, ?_⟩
      rw [Accounted, Array.toList_push, getElem?_erase_eq_update]
      exact accounted.destroyed present _

/-- A creation under a key without a value stores what it makes. -/
theorem Accounted.create (accounted : cache.Accounted around) {key : κ}
    (absent : cache.entries[key]? = none) :
    KeepsAccount (cache.create key) (cache.recording.create key) around := by
  have recorded := cache.handlers.run_recording_create key around.outside
  cases making : (cache.handlers.create key).run around.outside.outside with
  | mk made outside =>
      rw [making] at recorded
      cases made with
      | none =>
          refine ⟨_, cache, _, run_create_of_failed recorded, run_create_of_failed making, ?_⟩
          rw [Accounted, Array.toList_push]
          exact accounted.failed key
      | some value =>
          refine ⟨_, { cache with entries := cache.entries.insert key value }, _,
            run_create recorded, run_create making, ?_⟩
          rw [Accounted, Array.toList_push, getElem?_insert_eq_update]
          exact accounted.created absent value

/-- A forced creation destroys the value that it replaces, and then has a key without a
value, even when no value can be made for it. -/
theorem Accounted.put (accounted : cache.Accounted around) (key : κ) (force : Bool) :
    KeepsAccount (cache.put key force) (cache.recording.put key force) around := by
  have same : cache.recording.contains key = cache.contains key := rfl
  cases present : cache.contains key with
  | false =>
      rw [put_of_absent present, put_of_absent (same.trans present)]
      exact accounted.create (contains_eq_false_iff.mp present)
  | true =>
      cases force with
      | false =>
          exact ⟨false, cache, around, run_put_of_present (same.trans present) around,
            run_put_of_present present around.unrecorded, accounted⟩
      | true =>
          obtain ⟨verdict, next, middle, recorded, run, accounted⟩ := accounted.erase key
          obtain ⟨stored, last, after, recordedNext, runNext, accounted⟩ :=
            accounted.create (absent_of_erase run)
          refine ⟨stored, last, after, ?_, ?_, accounted⟩
          · rw [run_put_of_forced (same.trans present), recorded, recordedNext]
          · rw [run_put_of_forced present, run, runNext]

/-- A value is created on the way when the key has none. -/
theorem Accounted.get (accounted : cache.Accounted around) (key : κ) :
    KeepsAccount (cache.get key) (cache.recording.get key) around := by
  have same : cache.recording.contains key = cache.contains key := rfl
  cases present : cache.contains key with
  | false =>
      obtain ⟨stored, next, after, recorded, run, accounted⟩ :=
        accounted.create (contains_eq_false_iff.mp present)
      refine ⟨next.entries[key]?, next, after, ?_, ?_, accounted⟩
      · rw [run_get_of_absent (same.trans present), recorded]
        rfl
      · rw [run_get_of_absent present, run]
  | true =>
      exact ⟨cache.entries[key]?, cache, around,
        run_get_of_present (same.trans present) around,
        run_get_of_present present around.unrecorded, accounted⟩

/-- When a cache is cleared, every value that it holds is destroyed. -/
theorem Accounted.clear (accounted : cache.Accounted around) :
    ∃ after,
      cache.recording.clear.run around = ((ofHandlers cache.handlers).recording, after) ∧
        cache.clear.run around.unrecorded = (ofHandlers cache.handlers, after.unrecorded) ∧
          Balanced after.outside.calls.toList fun _ => none := by
  have distinct : (cache.toList.map Prod.fst).Nodup := by
    rw [toList, Std.TreeMap.map_fst_toList_eq_keys]
    exact Std.TreeMap.nodup_keys
  have listed : ∀ key value, (key, value) ∈ cache.toList ↔ cache.entries[key]? = some value :=
    fun _ _ => Std.TreeMap.mem_toList_iff_getElem?_eq_some
  obtain ⟨failures, after, recorded, run, settled⟩ :=
    destroyAll_accounted cache.handlers cache.toList around.outside _ accounted distinct listed
  exact ⟨_, run_clear recorded, run_clear run, settled⟩

/-- Every request keeps account of the values. -/
theorem Accounted.perform (accounted : cache.Accounted around) (request : Request κ) :
    KeepsAccount (cache.perform request) (cache.recording.perform request) around := by
  cases request with
  | put key force => exact (accounted.put key force).reply Reply.flag
  | get key => exact (accounted.get key).reply Reply.value
  | erase key => exact (accounted.erase key).reply Reply.flag
  | contains key => exact ⟨.flag (cache.contains key), cache, around, rfl, rfl, accounted⟩
  | size => exact ⟨.count cache.size, cache, around, rfl, rfl, accounted⟩
  | isEmpty => exact ⟨.flag cache.isEmpty, cache, around, rfl, rfl, accounted⟩
  | clear =>
      obtain ⟨after, recorded, run, settled⟩ := accounted.clear
      refine ⟨.done, ofHandlers cache.handlers, after, ?_, ?_, accounted_of_settled settled⟩
      · rw [ResourceCache.perform, Act.run_bind, recorded]
        rfl
      · rw [ResourceCache.perform, Act.run_bind, run]
        rfl

/-- So does every run of requests, by induction on what is still to be asked. -/
theorem Accounted.run (accounted : cache.Accounted around) (requests : List (Request κ)) :
    KeepsAccount (cache.run requests) (cache.recording.run requests) around := by
  induction requests generalizing cache around with
  | nil => exact ⟨[], cache, around, rfl, rfl, accounted⟩
  | cons request rest inductionHypothesis =>
      obtain ⟨reply, next, middle, recorded, run, accounted⟩ := accounted.perform request
      obtain ⟨replies, last, after, recordedRest, runRest, accounted⟩ :=
        inductionHypothesis accounted
      refine ⟨reply :: replies, last, after, ?_, ?_, accounted⟩
      · rw [ResourceCache.run, Act.run_bind, recorded, Act.run_bind, recordedRest]
        rfl
      · rw [ResourceCache.run, Act.run_bind, run, Act.run_bind, runRest]
        rfl

/-- At the end of its life a cache leaves nothing to account for. -/
theorem Accounted.release (accounted : cache.Accounted around) :
    ∃ after,
      cache.recording.release.run around = ((), after) ∧
        cache.release.run around.unrecorded = ((), after.unrecorded) ∧
          Balanced after.outside.calls.toList fun _ => none := by
  obtain ⟨after, recorded, run, settled⟩ := accounted.clear
  refine ⟨after, ?_, ?_, settled⟩
  · rw [ResourceCache.release, Act.run_bind, recorded]
    rfl
  · rw [ResourceCache.release, Act.run_bind, run]
    rfl

end Steps

/-- Whatever the handlers answer and whatever is asked of a cache: the values of every key
are created and destroyed in turns, a destruction gets the value that was created just
before, and the value that was not destroyed so far is the one that the cache holds. When
the life of the cache ends, no value is left. The handlers do not notice that they are
under record. -/
theorem values_accounted_for (handlers : Handlers ω κ τ) (outside : ω)
    (requests : List (Request κ)) :
    let ran := ((ofHandlers handlers.recording).run requests).run { outside := { outside } }
    let ended := ran.1.2.release.run ran.2
    let plain := ((ofHandlers handlers).run requests).run { outside }
    (∀ key, Alternates (history key ran.2.outside.calls.toList) ran.1.2.entries[key]?) ∧
      (∀ key, Alternates (history key ended.2.outside.calls.toList) none) ∧
        (ran.1.1 = plain.1.1 ∧ ran.1.2 = plain.1.2.recording ∧ ran.2.unrecorded = plain.2) ∧
          ended.2.unrecorded = (plain.1.2.release.run plain.2).2 := by
  intro ran ended plain
  have start : (ofHandlers handlers).Accounted { outside := { outside } } :=
    accounted_of_settled Balanced.empty
  obtain ⟨replies, cache, after, recorded, run, accounted⟩ := start.run requests
  obtain ⟨last, recordedRelease, release, settled⟩ := accounted.release
  have ranEq : ran = ((replies, cache.recording), after) := recorded
  have plainEq : plain = ((replies, cache), after.unrecorded) := run
  have endedEq : ended = ((), last) := by
    rw [← recordedRelease]
    exact congrArg (fun result => result.1.2.release.run result.2) ranEq
  rw [ranEq, endedEq, plainEq, release]
  exact ⟨accounted, settled, ⟨rfl, rfl, rfl⟩, rfl⟩

/-- The second creation fails, and so does every destruction of a value of `7`. -/
def faltering : Handlers Nat Nat Nat where
  create _ := fun made => (if made = 1 then none else some made, made + 1)
  destroy key _ := fun made => (key != 7, made)

/-- The value `0` is not replaced, since none can be made, but it is destroyed once. -/
theorem faltering_accounted_for :
    Std.TransOrd Nat ∧ Std.LawfulEqOrd Nat ∧
      Alternates (history 7
        [.create 7 (some 0), .destroy 7 0 false, .create 7 none, .create 7 (some 2),
          .create 8 (some 3)]) (some 2) ∧
      Alternates (history 7
        [.create 7 (some 0), .destroy 7 0 false, .create 7 none, .create 7 (some 2),
          .create 8 (some 3), .destroy 7 2 false, .destroy 8 3 true]) none := by
  obtain ⟨held, settled, -⟩ :=
    values_accounted_for faltering 0 [.put 7 false, .put 7 true, .get 7, .put 8 false]
  exact ⟨inferInstance, inferInstance, held 7, settled 7⟩

end ResourceCache

end GraphsAndCaches
