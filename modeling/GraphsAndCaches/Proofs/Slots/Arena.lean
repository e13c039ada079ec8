import GraphsAndCaches.Slots.Arena
import Mathlib.Data.List.Nodup
import Mathlib.Data.List.Perm.Subperm

/-!
# Well-formed arenas

The free list of an arena names its empty slots, each once, and the live count is the
number of the other slots. This invariant makes a reused slot one that holds nothing,
so that an insertion overwrites no value. It also bounds the free list, so that a
removal never counts below zero.

Each operation has one law for the values in all slots and one for the invariant.
-/

namespace GraphsAndCaches.Arena

universe u
variable {α : Type u} {arena : Arena α}

/-- The free list holds exactly the empty slots, none of them twice, and every other
slot is counted as live. -/
structure WellFormed (arena : Arena α) : Prop where
  nodup_free : arena.free.Nodup
  mem_free_iff : ∀ slot, slot ∈ arena.free ↔ arena.slots[slot]? = some none
  live_add_length_free : arena.live + arena.free.length = arena.slots.size

/-- A slot holds a value when the array has one there. -/
theorem get?_eq_some_iff {slot : Slot} {value : α} :
    arena.get? slot = some value ↔ arena.slots[slot]? = some (some value) := by
  rw [get?, Option.join_eq_some_iff]

theorem get?_eq_none_of_mem_free (wellFormed : arena.WellFormed) {slot : Slot}
    (member : slot ∈ arena.free) : arena.get? slot = none := by
  rw [get?, (wellFormed.mem_free_iff slot).mp member]
  rfl

theorem lt_size_of_mem_free (wellFormed : arena.WellFormed) {slot : Slot}
    (member : slot ∈ arena.free) : slot < arena.slots.size := by
  have inside := (wellFormed.mem_free_iff slot).mp member
  exact (Array.getElem?_eq_some_iff.mp inside).1

/-- The slots that hold nothing never fill the arena while one of them is live. -/
theorem length_free_lt_size (wellFormed : arena.WellFormed) {slot : Slot} {value : α}
    (found : arena.get? slot = some value) : arena.free.length < arena.slots.size := by
  have stored := get?_eq_some_iff.mp found
  have absent : slot ∉ arena.free := fun member => by
    rw [get?_eq_none_of_mem_free wellFormed member] at found
    cases found
  have distinct : (slot :: arena.free).Nodup := List.nodup_cons.mpr ⟨absent, wellFormed.nodup_free⟩
  have inside : slot :: arena.free ⊆ List.range arena.slots.size := by
    intro other member
    rw [List.mem_range]
    rcases List.mem_cons.mp member with rfl | free
    · exact (Array.getElem?_eq_some_iff.mp stored).1
    · exact lt_size_of_mem_free wellFormed free
  have fits := (distinct.subperm inside).length_le
  rwa [List.length_range, List.length_cons] at fits

/-- An arena without slots is well formed. -/
theorem wellFormed_empty : (empty : Arena α).WellFormed where
  nodup_free := List.nodup_nil
  mem_free_iff slot := by simp [empty]
  live_add_length_free := rfl

/-! ## Insertion -/

/-- An insertion takes a slot that held nothing. -/
theorem get?_fst_insert (wellFormed : arena.WellFormed) (value : α) :
    arena.get? (arena.insert value).1 = none := by
  obtain ⟨slots, free, live⟩ := arena
  cases free with
  | nil => simp [insert, get?]
  | cons slot free => exact get?_eq_none_of_mem_free wellFormed List.mem_cons_self

/-- An insertion writes into its own slot and no other. -/
theorem get?_snd_insert (wellFormed : arena.WellFormed) (value : α) (other : Slot) :
    (arena.insert value).2.get? other =
      if (arena.insert value).1 = other then some value else arena.get? other := by
  obtain ⟨slots, free, live⟩ := arena
  cases free with
  | nil =>
      change (slots.push (some value))[other]?.join =
        if slots.size = other then some value else slots[other]?.join
      rw [Array.getElem?_push]
      by_cases same : slots.size = other
      · rw [if_pos same, if_pos same.symm]
        rfl
      · rw [if_neg same, if_neg (Ne.symm same)]
  | cons slot free =>
      have inside : slot < slots.size := lt_size_of_mem_free wellFormed List.mem_cons_self
      change (slots.setIfInBounds slot (some value))[other]?.join =
        if slot = other then some value else slots[other]?.join
      rw [Array.getElem?_setIfInBounds]
      by_cases same : slot = other
      · rw [if_pos same, if_pos same, if_pos inside]
        rfl
      · rw [if_neg same, if_neg same]

theorem live_insert (arena : Arena α) (value : α) :
    (arena.insert value).2.live = arena.live + 1 := by
  obtain ⟨slots, free, live⟩ := arena
  cases free <;> rfl

theorem WellFormed.insert (wellFormed : arena.WellFormed) (value : α) :
    (arena.insert value).2.WellFormed := by
  obtain ⟨slots, free, live⟩ := arena
  obtain ⟨distinct, emptySlots, count⟩ := wellFormed
  cases free with
  | nil =>
      refine ⟨List.nodup_nil, fun slot => ?_, ?_⟩
      · have taken : slots[slot]? ≠ some none := fun vacant =>
          List.not_mem_nil ((emptySlots slot).mpr vacant)
        simp only [Arena.insert, Array.getElem?_push, List.not_mem_nil, false_iff]
        by_cases last : slot = slots.size
        · simp [last]
        · simp [last, taken]
      · simp only [Arena.insert, List.length_nil, Nat.add_zero, Array.size_push] at count ⊢
        rw [count]
  | cons slot free =>
      refine ⟨(List.nodup_cons.mp distinct).2, fun other => ?_, ?_⟩
      · have before := emptySlots other
        simp only [List.mem_cons] at before
        simp only [Arena.insert, Array.getElem?_setIfInBounds]
        by_cases same : slot = other
        · subst same
          have absent : slot ∉ free := (List.nodup_cons.mp distinct).1
          by_cases inside : slot < slots.size <;> simp [absent, inside]
        · rw [if_neg same, ← before]
          have different : ¬ other = slot := fun equal => same equal.symm
          simp [different]
      · simp only [Arena.insert, List.length_cons, Array.size_setIfInBounds] at count ⊢
        omega

/-! ## Removal -/

theorem live_remove (wellFormed : arena.WellFormed) {slot : Slot} {value : α}
    (found : arena.get? slot = some value) :
    (arena.remove slot).2.live + 1 = arena.live := by
  have room := length_free_lt_size wellFormed found
  have count := wellFormed.live_add_length_free
  simp only [remove, found]
  omega

theorem WellFormed.remove (wellFormed : arena.WellFormed) (slot : Slot) :
    (arena.remove slot).2.WellFormed := by
  cases found : arena.get? slot with
  | none => exact remove_of_get?_eq_none found ▸ wellFormed
  | some value =>
      have stored := get?_eq_some_iff.mp found
      have room := length_free_lt_size wellFormed found
      obtain ⟨distinct, emptySlots, count⟩ := wellFormed
      have inside : slot < arena.slots.size := (Array.getElem?_eq_some_iff.mp stored).1
      simp only [Arena.remove, found]
      refine ⟨?_, fun other => ?_, ?_⟩
      · refine List.nodup_cons.mpr ⟨fun member => ?_, distinct⟩
        rw [(emptySlots slot).mp member] at stored
        cases stored
      · rw [Array.getElem?_setIfInBounds, List.mem_cons]
        by_cases same : slot = other
        · simp [← same, inside]
        · rw [if_neg same, emptySlots other]
          have different : ¬ other = slot := fun equal => same equal.symm
          simp [different]
      · simp only [List.length_cons, Array.size_setIfInBounds]
        omega

/-! ## Changes in place -/

theorem WellFormed.modify (wellFormed : arena.WellFormed) (slot : Slot) (change : α → α) :
    (arena.modify slot change).WellFormed where
  nodup_free := wellFormed.nodup_free
  mem_free_iff other := by
    have before := wellFormed.mem_free_iff other
    simp only [Arena.modify, Array.getElem?_modify]
    rw [before]
    split
    · cases arena.slots[other]? with
      | none => simp
      | some content => cases content <;> simp
    · rfl
  live_add_length_free := by
    have count := wellFormed.live_add_length_free
    simpa only [Arena.modify, Array.size_modify] using count

/-- A change at a slot that is not live changes nothing. -/
theorem modify_of_get?_eq_none {slot : Slot} (absent : arena.get? slot = none)
    (change : α → α) : arena.modify slot change = arena := by
  obtain ⟨slots, free, live⟩ := arena
  rw [Arena.modify]
  congr 1
  apply Array.ext_getElem?
  intro other
  rw [Array.getElem?_modify]
  split
  · next same =>
      subst same
      rw [get?] at absent
      cases found : slots[slot]? with
      | none => rfl
      | some content =>
          rw [found] at absent
          cases content with
          | none => rfl
          | some value => cases absent
  · rfl

end GraphsAndCaches.Arena
