import GraphsAndCaches.Proofs.Slots.Footprint
import Mathlib.Data.List.ReduceOption
import Mathlib.Logic.Function.Basic

/-!
# Slots are reused in the order of their freeing

An arena is a finite map from slots to values. What it adds to such a map is the choice of the
slot for a new value. Of the slots that are empty it takes the one that was freed last, and a
new one behind all others when none is empty. `freeings` tells from the answers of a run which
slots were freed, and `Allotted` states the choice in terms of this history. `Step` says of
each operation what it answers and what the slots hold afterwards. The free list appears in
neither of them.

That the first slot of the free list is the one to take is an invariant of the whole list: each
of its slots was freed after those behind it, and no slot of the list was freed since without
being put in front. The slots of the list are the empty ones, so that nothing else has to be
known of the slots that were freed in between and are in use again, or were forgotten.
-/

namespace GraphsAndCaches.Arena

universe u
variable {α : Type u} {arena : Arena α} {freed free : List Slot} {slot : Slot}

/-! ## Definitions -/

/-- What there is under a number: no slot, an empty slot, or a slot with a value. -/
def cell? (arena : Arena α) (slot : Slot) : Option (Option α) := arena.slots[slot]?

/-- The slot that an operation freed, as its answer tells. -/
def freed? : Operation α → SlotAnswer α → Option Slot
  | .remove slot, .value (some _) => some slot
  | _, _ => none

/-- The slots that were freed in a run from the empty arena, one after another. -/
def freeings (operations : List (Operation α)) : List Slot :=
  (List.zipWith freed? operations ((empty : Arena α).run operations).1).reduceOption

/-- The slot that a new value gets. -/
inductive Allotted (freed : List Slot) (cells : Slot → Option (Option α)) : Slot → Prop where
  /-- Of the empty slots the one that was freed last: none that was freed after it is empty. -/
  | reused {slot : Slot} {before after : List Slot} (split : freed = before ++ slot :: after)
      (vacant : cells slot = some none) (since : ∀ other ∈ after, cells other ≠ some none) :
      Allotted freed cells slot
  /-- Where no slot is empty, a new one behind all others. -/
  | added {count : Nat} (full : ∀ slot, cells slot ≠ some none)
      (counted : ∀ slot, cells slot = none ↔ count ≤ slot) : Allotted freed cells count

/-- What an operation answers, and what the slots hold afterwards. An operation on a slot that
is not live finds nothing and changes nothing. -/
inductive Step (freed : List Slot) (cells : Slot → Option (Option α)) :
    Operation α → SlotAnswer α → (Slot → Option (Option α)) → Prop where
  | insert {slot : Slot} (value : α) (notLive : (cells slot).join = none)
      (allotted : Allotted freed cells slot) :
      Step freed cells (.insert value) (.slot (some slot))
        (Function.update cells slot (some (some value)))
  | remove {slot : Slot} {value : α} (live : cells slot = some (some value)) :
      Step freed cells (.remove slot) (.value (some value))
        (Function.update cells slot (some none))
  | removeAbsent {slot : Slot} (notLive : (cells slot).join = none) :
      Step freed cells (.remove slot) (.value none) cells
  | set {slot : Slot} {old : α} (value : α) (live : cells slot = some (some old)) :
      Step freed cells (.set slot value) (.value (some old))
        (Function.update cells slot (some (some value)))
  | setAbsent {slot : Slot} (value : α) (notLive : (cells slot).join = none) :
      Step freed cells (.set slot value) (.value none) cells
  | get (slot : Slot) : Step freed cells (.get slot) (.value (cells slot).join) cells
  | contains (slot : Slot) :
      Step freed cells (.contains slot) (.flag (cells slot).join.isSome) cells
  | isEmpty {truth : Bool} (vacant : truth = true ↔ ∀ slot, (cells slot).join = none) :
      Step freed cells .isEmpty (.flag truth) cells
  | clear : Step freed cells .clear .done fun _ => none

/-- The slot that an operation names. -/
def Operation.target? : Operation α → Option Slot
  | .remove slot | .get slot | .set slot _ | .contains slot => some slot
  | _ => none

/-- What can be relied on in every state. -/
structure Sound (arena : Arena α) : Prop where
  /-- The free list has every empty slot once, and no other number. -/
  nodup_free : arena.free.Nodup
  mem_free_iff : ∀ slot, slot ∈ arena.free ↔ arena.cell? slot = some none
  /-- The size is the number of the slots that hold a value. -/
  size_eq : arena.size = arena.liveSlots.length
  /-- A slot of the free list is there to be written to. -/
  lt_size_of_free : ∀ slot ∈ arena.free, slot < arena.slots.size
  /-- Where a value can be taken out, there is one to be counted down. -/
  live_pos : ∀ slot, arena.contains slot = true → 0 < arena.live

/-! ## What the slots hold -/

/-- A slot that is there gets what is written to it, and no other slot does. -/
theorem getElem?_setIfInBounds_eq {slots : Array (Option α)} (inside : slot < slots.size)
    {content : Option α} (other : Slot) :
    (slots.setIfInBounds slot content)[other]? =
      if other = slot then some content else slots[other]? := by
  rw [Array.getElem?_setIfInBounds]
  by_cases same : slot = other
  · rw [if_pos same, if_pos same.symm, if_pos inside]
  · rw [if_neg same, if_neg (Ne.symm same)]

/-- An insertion writes its value into the slot that it answers, and nowhere else. -/
theorem cell?_insert (wellFormed : arena.WellFormed) (value : α) :
    (arena.insert value).2.cell? =
      Function.update arena.cell? (arena.insert value).1 (some (some value)) := by
  funext other
  obtain ⟨slots, free, live⟩ := arena
  rw [Function.update_apply]
  cases free with
  | nil => exact Array.getElem?_push
  | cons slot free =>
      have inside : slot < slots.size := lt_size_of_mem_free wellFormed List.mem_cons_self
      exact getElem?_setIfInBounds_eq inside other

/-- A removal empties its slot, if there is something in it. -/
theorem cell?_remove {value : α} (stored : arena.get? slot = some value) :
    (arena.remove slot).2.cell? = Function.update arena.cell? slot (some none) := by
  funext other
  rw [Function.update_apply, remove, stored]
  exact getElem?_setIfInBounds_eq (lt_size_of_get?_eq_some stored) other

/-- A value is written over another one. -/
theorem cell?_modify {old : α} (stored : arena.get? slot = some old) (value : α) :
    (arena.modify slot fun _ => value).cell? =
      Function.update arena.cell? slot (some (some value)) := by
  funext other
  rw [Function.update_apply, cell?, modify, Array.getElem?_modify]
  by_cases same : slot = other
  · subst same
    rw [if_pos rfl, if_pos rfl, get?_eq_some_iff.mp stored]
    rfl
  · rw [if_neg same, if_neg (Ne.symm same)]
    rfl

/-- An operation on a slot that is not live leaves the whole arena as it was. -/
theorem perform_of_absent {operation : Operation α} (named : operation.target? = some slot)
    (absent : arena.get? slot = none) : (arena.perform operation).2 = arena := by
  cases operation <;> cases named
  · exact congrArg Prod.snd (remove_of_get?_eq_none absent)
  · rfl
  · exact modify_of_get?_eq_none absent _
  · rfl

/-- Nothing is live exactly when no slot holds a value. -/
theorem isEmpty_iff (wellFormed : arena.WellFormed) :
    arena.isEmpty = true ↔ ∀ slot, arena.get? slot = none := by
  rw [isEmpty, beq_iff_eq, ← length_liveSlots wellFormed, List.length_eq_zero_iff, liveSlots,
    List.filter_eq_nil_iff]
  constructor
  · intro vacant slot
    by_contra live
    obtain ⟨value, stored⟩ := Option.ne_none_iff_exists'.mp live
    have listed := List.mem_range.mpr (lt_size_of_get?_eq_some stored)
    have notLive := vacant slot listed
    simp [contains, stored] at notLive
  · intro vacant slot _
    simp [contains, vacant slot]

/-! ## The order of the free list -/

/-- Each of the slots was freed after those behind it, and was not freed again since, nor was
any of those. -/
inductive LastFirst (freed : List Slot) : List Slot → Prop where
  | nil : LastFirst freed []
  | cons {slot : Slot} {older before after : List Slot}
      (split : freed = before ++ slot :: after)
      (since : ∀ other ∈ after, other ∉ slot :: older) (rest : LastFirst freed older) :
      LastFirst freed (slot :: older)

namespace LastFirst

/-- The order stays when a slot is freed that is not among those listed. -/
theorem concat (lastFirst : LastFirst freed free) (other : slot ∉ free) :
    LastFirst (freed ++ [slot]) free := by
  induction lastFirst with
  | nil => exact .nil
  | @cons first older before after split since _ inductionHypothesis =>
      have notOlder : slot ∉ older := fun member => other (List.mem_cons_of_mem _ member)
      have prolonged : freed ++ [slot] = before ++ first :: (after ++ [slot]) := by
        rw [split, List.append_assoc, List.cons_append]
      refine .cons prolonged ?_ (inductionHypothesis notOlder)
      intro later member
      rcases List.mem_append.mp member with early | last
      · exact since later early
      · exact List.mem_singleton.mp last ▸ other

/-- A slot that is freed goes to the front. -/
theorem push (lastFirst : LastFirst freed free) (other : slot ∉ free) :
    LastFirst (freed ++ [slot]) (slot :: free) :=
  .cons rfl (fun _ member => nomatch member) (lastFirst.concat other)

theorem tail (lastFirst : LastFirst freed free) : LastFirst freed free.tail := by
  cases lastFirst with
  | nil => exact .nil
  | cons split since rest => exact rest

/-- An operation that frees nothing leaves the history as it was. -/
theorem keep (lastFirst : LastFirst freed free) {operation : Operation α} {answer : SlotAnswer α}
    (nothing : freed? operation answer = none) (same : arena.free = free) :
    LastFirst (freed ++ (freed? operation answer).toList) arena.free := by
  rw [nothing, same, Option.toList_none, List.append_nil]
  exact lastFirst

/-- Every operation keeps the order of the free list, over the history that it prolongs. -/
theorem perform (lastFirst : LastFirst freed arena.free) (wellFormed : arena.WellFormed)
    (operation : Operation α) :
    LastFirst (freed ++ (freed? operation (arena.perform operation).1).toList)
      (arena.perform operation).2.free := by
  cases operation with
  | insert value =>
      have taken : (arena.insert value).2.free = arena.free.tail := by
        obtain ⟨slots, free, live⟩ := arena
        cases free <;> rfl
      exact lastFirst.tail.keep rfl taken
  | remove slot =>
      cases found : arena.get? slot with
      | none =>
          simp only [Arena.perform, remove_of_get?_eq_none found]
          exact lastFirst.keep rfl rfl
      | some value =>
          -- A slot that holds a value is not in the list, so that it can be put in front.
          have inUse : slot ∉ arena.free := fun member => by
            rw [get?_eq_none_of_mem_free wellFormed member] at found
            cases found
          simp only [Arena.perform, remove, found]
          exact lastFirst.push inUse
  | clear => exact .nil
  | _ => exact lastFirst.keep rfl rfl

/-- The slot that an insertion answers is the one that is its turn. -/
theorem allotted (lastFirst : LastFirst freed arena.free) (wellFormed : arena.WellFormed)
    (value : α) : Allotted freed arena.cell? (arena.insert value).1 := by
  have vacant_iff : ∀ slot, arena.cell? slot = some none ↔ slot ∈ arena.free :=
    fun slot => (wellFormed.mem_free_iff slot).symm
  obtain ⟨slots, free, live⟩ := arena
  cases lastFirst with
  | nil =>
      apply Allotted.added
      · exact fun slot vacant => List.not_mem_nil ((vacant_iff slot).mp vacant)
      · exact fun slot => Array.getElem?_eq_none_iff
  | @cons slot older before after split since rest =>
      apply Allotted.reused split
      · exact (vacant_iff slot).mpr List.mem_cons_self
      · exact fun other later vacant => since other later ((vacant_iff other).mp vacant)

/-- Every operation takes a step. -/
theorem step (lastFirst : LastFirst freed arena.free) (wellFormed : arena.WellFormed)
    (operation : Operation α) :
    Step freed arena.cell? operation (arena.perform operation).1
      (arena.perform operation).2.cell? := by
  cases operation with
  | insert value =>
      have allotted := lastFirst.allotted wellFormed value
      simp only [Arena.perform, cell?_insert wellFormed value]
      exact .insert value (get?_fst_insert wellFormed value) allotted
  | remove slot =>
      cases found : arena.get? slot with
      | none =>
          simp only [Arena.perform, remove_of_get?_eq_none found]
          exact .removeAbsent found
      | some value =>
          simp only [Arena.perform, cell?_remove found, fst_remove, found]
          exact .remove (get?_eq_some_iff.mp found)
  | set slot value =>
      cases found : arena.get? slot with
      | none =>
          simp only [Arena.perform, replace, found, modify_of_get?_eq_none found]
          exact .setAbsent value found
      | some old =>
          simp only [Arena.perform, replace, found, cell?_modify found]
          exact .set value (get?_eq_some_iff.mp found)
  | get slot => exact .get slot
  | contains slot => exact .contains slot
  | isEmpty => exact .isEmpty (isEmpty_iff wellFormed)
  | clear => exact .clear

end LastFirst

/-! ## Runs -/

theorem WellFormed.sound (wellFormed : arena.WellFormed) : Sound arena where
  nodup_free := wellFormed.nodup_free
  mem_free_iff := wellFormed.mem_free_iff
  size_eq := (length_liveSlots wellFormed).symm
  lt_size_of_free slot member := lt_size_of_mem_free wellFormed member
  live_pos slot live := by
    obtain ⟨value, stored⟩ := Option.isSome_iff_exists.mp live
    have counted := live_remove wellFormed stored
    omega

/-- The answers of a longer run are those of the shorter one and one more. -/
theorem answers_concat (arena : Arena α) (operations : List (Operation α)) (last : Operation α) :
    (arena.run (operations ++ [last])).1 =
      (arena.run operations).1 ++ [((arena.run operations).2.perform last).1] := by
  induction operations generalizing arena with
  | nil => rfl
  | cons operation rest inductionHypothesis =>
      exact congrArg (List.cons _) (inductionHypothesis _)

theorem length_answers (arena : Arena α) (operations : List (Operation α)) :
    (arena.run operations).1.length = operations.length := by
  induction operations generalizing arena with
  | nil => rfl
  | cons operation rest inductionHypothesis => exact congrArg (· + 1) (inductionHypothesis _)

theorem freeings_concat (operations : List (Operation α)) (last : Operation α) :
    freeings (operations ++ [last]) =
      freeings operations ++
        (freed? last ((((empty : Arena α).run operations).2).perform last).1).toList := by
  rw [freeings, answers_concat, List.zipWith_append (length_answers _ _).symm,
    List.reduceOption_append, freeings]
  congr 1

/-- The free list is in the order of the freeings after every run. -/
theorem lastFirst_free (operations : List (Operation α)) :
    LastFirst (freeings operations) ((empty : Arena α).run operations).2.free := by
  induction operations using List.reverseRecOn with
  | nil => exact .nil
  | append_singleton operations last inductionHypothesis =>
      rw [freeings_concat, run_concat]
      exact inductionHypothesis.perform (wellFormed_empty.run operations) last

/-- After whatever operations, on slots of whatever kind, the arena is sound, and the next
operation takes a step of the map from slots to values. In particular a new value gets the
empty slot that was freed last, or else a new slot, and an operation on a slot that is not live
leaves the whole arena as it was. -/
theorem run_allots (operations : List (Operation α)) :
    let arena := ((empty : Arena α).run operations).2
    Sound arena ∧
      ∀ operation : Operation α,
        Step (freeings operations) arena.cell? operation (arena.perform operation).1
            (arena.perform operation).2.cell? ∧
          ∀ slot, operation.target? = some slot → arena.contains slot = false →
            (arena.perform operation).2 = arena := by
  intro arena
  have wellFormed : arena.WellFormed := wellFormed_empty.run operations
  have lastFirst : LastFirst (freeings operations) arena.free := lastFirst_free operations
  refine ⟨wellFormed.sound, fun operation => ⟨lastFirst.step wellFormed operation, ?_⟩⟩
  intro slot named absent
  have vacant : arena.get? slot = none := by simpa [contains] using absent
  exact perform_of_absent named vacant

-- A slot that is empty is not freed again by a second removal, and is given to one value only.
example : ((empty : Arena Char).run
    [.insert 'a', .insert 'b', .remove 1, .remove 0, .insert 'c', .remove 1, .insert 'd',
      .insert 'e']).1.drop 4 =
      [.slot (some 0), .value none, .slot (some 1), .slot (some 2)] := by
  decide

end GraphsAndCaches.Arena
