import GraphsAndCaches.Proofs.Slots.LinkedList
import Mathlib.Data.List.DropRight
import Mathlib.Data.List.Induction
import Mathlib.Order.Bounds.Basic

/-!
# The slots that are held

An arena gets a new slot only when none is free, and then every slot it has is live. So it
never has more slots than values that were live together: the number of its slots is the
greatest number of live values since the last time that it was cleared, or since its beginning.
Each operation says the same of one step. The number of slots afterwards is the greater one of
the number before and the number that is live afterwards.

A linked list works on its arena by such operations and by changes of links, which need no
slot. The links of its nodes and its ends lead to live slots only.
-/

namespace GraphsAndCaches

universe u
variable {α : Type u}

namespace Arena

variable {arena : Arena α}

/-- The slots that hold a value, in order. -/
def liveSlots (arena : Arena α) : List Slot :=
  (List.range arena.slots.size).filter arena.contains

/-- Whether an operation makes the arena forget its slots. -/
def Operation.forgets : Operation α → Bool
  | .clear => true
  | _ => false

/-- The operations up to some moment that is not before the last one that forgets. -/
def SinceForgotten (operations moment : List (Operation α)) : Prop :=
  operations.rdropWhile (fun operation => !operation.forgets) <+: moment ∧ moment <+: operations

/-! ## Live slots -/

/-- A slot is vacant when it is free. -/
theorem contains_eq_false_iff_mem_free (wellFormed : arena.WellFormed) {slot : Slot}
    (inside : slot < arena.slots.size) : arena.contains slot = false ↔ slot ∈ arena.free := by
  rw [wellFormed.mem_free_iff slot, contains, get?, Array.getElem?_eq_getElem inside]
  cases arena.slots[slot] <;> simp

/-- The live count is the number of slots that hold a value. -/
theorem length_liveSlots (wellFormed : arena.WellFormed) : arena.liveSlots.length = arena.live := by
  have vacant : ((List.range arena.slots.size).filter fun slot => !arena.contains slot).Perm
      arena.free := by
    rw [List.perm_ext_iff_of_nodup (List.nodup_range.filter _) wellFormed.nodup_free]
    intro slot
    rw [List.mem_filter, List.mem_range, Bool.not_eq_true']
    constructor
    · rintro ⟨inside, absent⟩
      exact (contains_eq_false_iff_mem_free wellFormed inside).mp absent
    · intro member
      have inside := lt_size_of_mem_free wellFormed member
      exact ⟨inside, (contains_eq_false_iff_mem_free wellFormed inside).mpr member⟩
  have split := List.length_eq_length_filter_add (l := List.range arena.slots.size) arena.contains
  have count := wellFormed.live_add_length_free
  rw [List.length_range, vacant.length_eq] at split
  simp only [liveSlots]
  omega

/-- A live slot is one of the arena. -/
theorem lt_size_of_get?_eq_some {slot : Slot} {value : α}
    (stored : arena.get? slot = some value) : slot < arena.slots.size :=
  (Array.getElem?_eq_some_iff.mp (get?_eq_some_iff.mp stored)).1

/-! ## One operation -/

/-- An insertion takes a new slot only when all others are live. -/
theorem size_slots_insert (wellFormed : arena.WellFormed) (value : α) :
    (arena.insert value).2.slots.size = max (arena.insert value).2.live arena.slots.size := by
  have count := wellFormed.live_add_length_free
  obtain ⟨slots, free, live⟩ := arena
  cases free with
  | nil =>
      simp only [insert, Array.size_push, List.length_nil] at count ⊢
      omega
  | cons slot free =>
      simp only [insert, Array.size_setIfInBounds, List.length_cons] at count ⊢
      omega

/-- A removal keeps the slot for later. -/
theorem size_slots_remove (arena : Arena α) (slot : Slot) :
    (arena.remove slot).2.slots.size = arena.slots.size := by
  rw [remove]
  cases arena.get? slot with
  | none => rfl
  | some value => exact Array.size_setIfInBounds

theorem size_slots_modify (arena : Arena α) (slot : Slot) (change : α → α) :
    (arena.modify slot change).slots.size = arena.slots.size :=
  Array.size_modify

/-- There are never more live values than slots. -/
theorem live_le_size_slots (wellFormed : arena.WellFormed) : arena.live ≤ arena.slots.size := by
  have count := wellFormed.live_add_length_free
  omega

theorem WellFormed.perform (wellFormed : arena.WellFormed) (operation : Operation α) :
    (arena.perform operation).2.WellFormed := by
  cases operation with
  | insert value => exact wellFormed.insert value
  | remove slot => exact wellFormed.remove slot
  | set slot value => exact wellFormed.modify slot _
  | clear => exact wellFormed_empty
  | _ => exact wellFormed

/-- An operation that forgets nothing leaves as many slots as before, or as many as are live
then, whichever is more. -/
theorem size_slots_perform (wellFormed : arena.WellFormed) {operation : Operation α}
    (keeps : operation.forgets = false) :
    (arena.perform operation).2.slots.size =
      max (arena.perform operation).2.live arena.slots.size := by
  have room := live_le_size_slots (wellFormed.perform operation)
  cases operation with
  | insert value => exact size_slots_insert wellFormed value
  | remove slot =>
      have same := size_slots_remove arena slot
      simp only [Arena.perform] at room ⊢
      omega
  | set slot value =>
      have same := size_slots_modify arena slot fun _ => value
      simp only [Arena.perform, replace] at room ⊢
      omega
  | clear => exact nomatch keeps
  | _ => exact (Nat.max_eq_right room).symm

/-! ## A run -/

theorem run_concat (arena : Arena α) (operations : List (Operation α)) (last : Operation α) :
    (arena.run (operations ++ [last])).2 = ((arena.run operations).2.perform last).2 := by
  induction operations generalizing arena with
  | nil => rfl
  | cons operation rest inductionHypothesis => exact inductionHypothesis _

theorem WellFormed.run (wellFormed : arena.WellFormed) (operations : List (Operation α)) :
    (arena.run operations).2.WellFormed := by
  induction operations generalizing arena with
  | nil => exact wellFormed
  | cons operation rest inductionHypothesis =>
      exact inductionHypothesis (wellFormed.perform operation)

/-- An operation that forgets nothing adds the moment after it to those before it. -/
theorem sinceForgotten_concat {operations moment : List (Operation α)} {last : Operation α}
    (keeps : last.forgets = false) :
    SinceForgotten (operations ++ [last]) moment ↔
      moment = operations ++ [last] ∨ SinceForgotten operations moment := by
  have kept : operations.rdropWhile (fun operation => !operation.forgets) <+: operations :=
    List.rdropWhile_prefix _ operations
  rw [SinceForgotten, SinceForgotten, List.rdropWhile_concat_pos _ _ _ (by simp [keeps]),
    List.prefix_concat_iff]
  constructor
  · rintro ⟨after, rfl | before⟩
    · exact .inl rfl
    · exact .inr ⟨after, before⟩
  · rintro (rfl | ⟨after, before⟩)
    · exact ⟨kept.trans (List.prefix_append operations [last]), .inl rfl⟩
    · exact ⟨after, .inr before⟩

/-- After an operation that forgets there is no moment but the present one. -/
theorem sinceForgotten_concat_of_forgets {operations moment : List (Operation α)}
    {last : Operation α} (forgets : last.forgets = true) :
    SinceForgotten (operations ++ [last]) moment ↔ moment = operations ++ [last] := by
  rw [SinceForgotten, List.rdropWhile_concat_neg _ _ _ (by simp [forgets])]
  constructor
  · rintro ⟨after, before⟩
    exact before.eq_of_length_le after.length_le
  · rintro rfl
    exact ⟨List.prefix_rfl, List.prefix_rfl⟩

/-- The number of slots is the greatest live count since the slots were forgotten.

Induct on the operations, from the last one. One that forgets leaves a single moment, at which
nothing is live. Any other adds a moment, and the number of slots becomes the number that is
live then if that is greater. -/
theorem isGreatest_live (operations : List (Operation α)) :
    IsGreatest
      {live | ∃ moment, SinceForgotten operations moment ∧
        live = (((empty : Arena α).run moment).2).live}
      ((empty : Arena α).run operations).2.slots.size := by
  induction operations using List.reverseRecOn with
  | nil =>
      constructor
      · exact ⟨[], ⟨List.prefix_rfl, List.prefix_rfl⟩, rfl⟩
      · rintro live ⟨moment, ⟨-, before⟩, rfl⟩
        rw [List.prefix_nil.mp before]
        exact Nat.le_refl 0
  | append_singleton operations last inductionHypothesis =>
      cases forgets : last.forgets with
      | true =>
          have cleared : ((empty : Arena α).run (operations ++ [last])).2 = empty := by
            rw [run_concat]
            cases last with
            | clear => rfl
            | _ => exact nomatch forgets
          simp only [sinceForgotten_concat_of_forgets forgets, exists_eq_left, cleared]
          exact isGreatest_singleton
      | false =>
          have added : {live | ∃ moment, SinceForgotten (operations ++ [last]) moment ∧
                live = (((empty : Arena α).run moment).2).live} =
              Insert.insert ((empty : Arena α).run (operations ++ [last])).2.live
                {live | ∃ moment, SinceForgotten operations moment ∧
                  live = (((empty : Arena α).run moment).2).live} := by
            ext live
            simp only [sinceForgotten_concat forgets, Set.mem_ofPred_eq, Set.mem_insert_iff,
              or_and_right, exists_or, exists_eq_left]
          rw [added, run_concat, size_slots_perform (wellFormed_empty.run operations) forgets]
          exact inductionHypothesis.insert _

/-- An arena has as many slots as it ever had live ones since its slots were forgotten. -/
theorem isGreatest_length_liveSlots (operations : List (Operation α)) :
    IsGreatest
      {live | ∃ moment, SinceForgotten operations moment ∧
        live = (((empty : Arena α).run moment).2).liveSlots.length}
      ((empty : Arena α).run operations).2.slots.size := by
  have counted : ∀ moment : List (Operation α),
      ((empty : Arena α).run moment).2.liveSlots.length = ((empty : Arena α).run moment).2.live :=
    fun moment => length_liveSlots (wellFormed_empty.run moment)
  simp only [counted]
  exact isGreatest_live operations

-- A slot that was freed is used again, and stays when it is freed once more.
example : ((empty : Arena Char).run
    [.insert 'a', .insert 'b', .remove 0, .insert 'c', .remove 1]).2.slots.size = 2 := by
  decide

end Arena

/-! ## Linked lists -/

namespace LinkedList

variable {list : LinkedList α} {rows : List (Slot × α)} {slot : Slot}

/-- The number of slots that a list has for its nodes. -/
def slotCount (list : LinkedList α) : Nat := list.nodes.slots.size

@[simp]
theorem slotCount_setNewer (list : LinkedList α) (slot? newer : Option Slot) :
    (list.setNewer slot? newer).slotCount = list.slotCount := by
  cases slot? with
  | none => rfl
  | some slot => exact Arena.size_slots_modify _ slot _

@[simp]
theorem slotCount_setOlder (list : LinkedList α) (slot? older : Option Slot) :
    (list.setOlder slot? older).slotCount = list.slotCount := by
  cases slot? with
  | none => rfl
  | some slot => exact Arena.size_slots_modify _ slot _

@[simp]
theorem slotCount_linkFront (list : LinkedList α) (slot : Slot) :
    (list.linkFront slot).slotCount = list.slotCount := by
  change (((list.setNewer list.newest (some slot)).setOlder (some slot) list.newest).setNewer
    (some slot) none).slotCount = list.slotCount
  rw [slotCount_setNewer, slotCount_setOlder, slotCount_setNewer]

@[simp]
theorem slotCount_unlink (list : LinkedList α) (slot : Slot) :
    (list.unlink slot).slotCount = list.slotCount := by
  rw [unlink]
  cases list.nodes.get? slot with
  | none => rfl
  | some node =>
      refine (Arena.size_slots_modify _ slot _).trans ?_
      change ((list.setOlder node.newer node.older).setNewer node.older node.newer).slotCount = _
      rw [slotCount_setNewer, slotCount_setOlder]

@[simp]
theorem slotCount_remove (list : LinkedList α) (slot : Slot) :
    (list.remove slot).2.slotCount = list.slotCount :=
  (Arena.size_slots_remove _ slot).trans (slotCount_unlink list slot)

@[simp]
theorem slotCount_popBack (list : LinkedList α) : list.popBack.2.slotCount = list.slotCount := by
  rw [popBack]
  cases list.oldest with
  | none => rfl
  | some slot => exact slotCount_remove list slot

@[simp]
theorem slotCount_moveToFront (list : LinkedList α) (slot : Slot) :
    (list.moveToFront slot).2.slotCount = list.slotCount := by
  rw [moveToFront]
  split
  · split
    · rfl
    · rw [slotCount_linkFront, slotCount_unlink]
  · rfl

@[simp]
theorem slotCount_replace (list : LinkedList α) (slot : Slot) (value : α) :
    (list.replace slot value).2.slotCount = list.slotCount :=
  Arena.size_slots_modify _ slot _

/-- A new node takes a new slot only when all others have nodes. -/
theorem slotCount_pushFront (represented : Represents list rows) (value : α) :
    (list.pushFront value).2.slotCount = max (list.pushFront value).2.size list.slotCount := by
  have pushed := represented.pushFront value
  have slots : (list.pushFront value).2.slotCount = _ :=
    (slotCount_linkFront _ _).trans (Arena.size_slots_insert represented.holds.wellFormed _)
  rw [slots, pushed.size_eq, Arena.live_insert, represented.holds.live]
  rfl

/-- A row is one of a live node, whose slot the list has. -/
theorem Represents.lt_slotCount (represented : Represents list rows)
    (member : slot ∈ rows.map Prod.fst) : slot < list.slotCount := by
  obtain ⟨⟨slot, value⟩, row, rfl⟩ := List.mem_map.mp member
  obtain ⟨node, stored, -⟩ := Option.map_eq_some_iff.mp (represented.get?_eq_some_iff.mpr row)
  exact Arena.lt_size_of_get?_eq_some stored

/-- The links of a node lead to rows. -/
theorem Represents.mem_of_link (represented : Represents list rows) {node : Node α}
    (stored : list.nodes.get? slot = some node) {linked : Slot}
    (link : node.newer = some linked ∨ node.older = some linked) :
    linked ∈ rows.map Prod.fst := by
  have row : (slot, node.value) ∈ rows := by
    apply represented.get?_eq_some_iff.mp
    rw [get?, stored]
    rfl
  obtain ⟨above, below, rfl⟩ := List.append_of_mem row
  obtain ⟨-, back⟩ := linked_append_iff.mp represented.linked
  rw [Option.some.inj (stored.symm.trans back.chained.1)] at link
  rw [List.map_append, List.mem_append, List.map_cons, List.mem_cons]
  rcases link with newer | older
  · exact .inl (mem_of_lastSlot newer)
  · exact .inr (.inr (mem_of_firstSlot older))

/-- The ends of a list are rows. -/
theorem Represents.mem_of_end (represented : Represents list rows)
    (last : list.newest = some slot ∨ list.oldest = some slot) : slot ∈ rows.map Prod.fst := by
  rcases last with newest | oldest
  · exact mem_of_firstSlot (represented.linked.newest.symm.trans newest)
  · exact mem_of_lastSlot (represented.linked.oldest.symm.trans oldest)

end LinkedList

end GraphsAndCaches
