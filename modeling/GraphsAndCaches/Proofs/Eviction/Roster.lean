import GraphsAndCaches.Proofs.Eviction.Lineup
import GraphsAndCaches.Proofs.Slots.LinkedList
import Std.Data.HashMap.Lemmas

/-!
# Rosters hold lineups

The rows of a roster are the rows of its list: slots with entries. The index maps the
keys of exactly these rows to their slots. Neither the order of the rows nor their
values matter to the index, so an operation changes the list as the laws of linked lists
say, and the index by at most one key.

A key either has no row and no slot in the index, or the rows are cut at the only row
that has it. With this each operation does to the entries what the lineup of the same
name does.
-/

namespace GraphsAndCaches.Roster

variable {κ ν : Type} [DecidableEq κ] [Hashable κ]
variable {index : Std.HashMap κ Slot} {rows above below : List (Slot × κ × ν)}
variable {key : κ} {value : ν} {slot : Slot}

/-! ## The index -/

/-- The index leads from the key of each row to its slot, and knows no other keys. -/
structure Indexed (index : Std.HashMap κ Slot) (rows : List (Slot × κ × ν)) : Prop where
  distinct : (rows.map fun row => row.2.1).Nodup
  slot_iff : ∀ key slot, index[key]? = some slot ↔ ∃ value, (slot, key, value) ∈ rows
  size : index.size = rows.length

namespace Indexed

theorem empty : Indexed (∅ : Std.HashMap κ Slot) ([] : List (Slot × κ × ν)) where
  distinct := List.nodup_nil
  slot_iff key slot := by simp
  size := rfl

/-- The order of the rows does not matter. -/
theorem perm {other : List (Slot × κ × ν)} (indexed : Indexed index rows)
    (same : rows.Perm other) : Indexed index other where
  distinct := (same.map _).nodup_iff.mp indexed.distinct
  slot_iff key slot := by simp only [indexed.slot_iff key slot, same.mem_iff]
  size := indexed.size.trans same.length_eq

/-- A key without a slot is in no row. -/
theorem lacks (indexed : Indexed index rows) (unindexed : index[key]? = none) :
    Lineup.Lacks (rows.map Prod.snd) key := by
  rintro entry member rfl
  obtain ⟨⟨slot, entry⟩, row, rfl⟩ := List.mem_map.mp member
  have found := (indexed.slot_iff entry.1 slot).mpr ⟨entry.2, row⟩
  rw [unindexed] at found
  cases found

/-- The key of one row is in no other row. -/
theorem lacks_rest (indexed : Indexed index ((slot, key, value) :: rows)) :
    Lineup.Lacks (rows.map Prod.snd) key := by
  rintro entry member rfl
  obtain ⟨row, listed, rfl⟩ := List.mem_map.mp member
  exact (List.nodup_cons.mp indexed.distinct).1 (List.mem_map.mpr ⟨row, listed, rfl⟩)

/-- A value does not matter to the index. -/
theorem replace (indexed : Indexed index ((slot, key, value) :: rows)) (newValue : ν) :
    Indexed index ((slot, key, newValue) :: rows) where
  distinct := indexed.distinct
  slot_iff other place := by
    rw [indexed.slot_iff other place]
    simp only [List.mem_cons, Prod.mk.injEq]
    constructor
    · rintro ⟨found, ⟨samePlace, sameKey, -⟩ | member⟩
      · exact ⟨newValue, .inl ⟨samePlace, sameKey, rfl⟩⟩
      · exact ⟨found, .inr member⟩
    · rintro ⟨found, ⟨samePlace, sameKey, -⟩ | member⟩
      · exact ⟨value, .inl ⟨samePlace, sameKey, rfl⟩⟩
      · exact ⟨found, .inr member⟩
  size := indexed.size

/-- A key without a slot is given one with its row. -/
theorem insert (indexed : Indexed index rows) (unindexed : index[key]? = none) (slot : Slot)
    (value : ν) : Indexed (index.insert key slot) ((slot, key, value) :: rows) where
  distinct := by
    refine List.nodup_cons.mpr ⟨fun member => ?_, indexed.distinct⟩
    obtain ⟨row, listed, same⟩ := List.mem_map.mp member
    exact indexed.lacks unindexed row.2 (List.mem_map_of_mem listed) same
  slot_iff other place := by
    rw [Std.HashMap.getElem?_insert]
    by_cases same : key = other
    · subst same
      have noRow : ∀ found, (place, key, found) ∉ rows := fun found row =>
        indexed.lacks unindexed (key, found) (List.mem_map_of_mem row) rfl
      simp [noRow, eq_comm]
    · have different : ¬ other = key := fun equal => same equal.symm
      simp [same, different, indexed.slot_iff other place]
  size := by
    have absent : ¬ key ∈ index := by
      rw [Std.HashMap.mem_iff_isSome_getElem?, unindexed]
      exact Bool.false_ne_true
    rw [Std.HashMap.size_insert, if_neg absent, indexed.size, List.length_cons]

/-- A key is forgotten with its row. -/
theorem erase (indexed : Indexed index ((slot, key, value) :: rows)) :
    Indexed (index.erase key) rows where
  distinct := (List.nodup_cons.mp indexed.distinct).2
  slot_iff other place := by
    rw [Std.HashMap.getElem?_erase]
    by_cases same : key = other
    · subst same
      have noRow : ∀ found, (place, key, found) ∉ rows := fun found row =>
        indexed.lacks_rest (key, found) (List.mem_map_of_mem row) rfl
      simp [noRow]
    · have different : ¬ other = key := fun equal => same equal.symm
      simp [same, different, indexed.slot_iff other place]
  size := by
    have found : index[key]? = some slot :=
      (indexed.slot_iff key slot).mpr ⟨value, List.mem_cons_self⟩
    have present : key ∈ index := by
      rw [Std.HashMap.mem_iff_isSome_getElem?, found]
      rfl
    rw [Std.HashMap.size_erase, if_pos present, indexed.size, List.length_cons,
      Nat.add_sub_cancel]

end Indexed

/-! ## Rows and entries -/

variable {roster : Roster κ ν} {entries : Lineup κ ν}

/-- The list and the index describe the same rows. -/
structure Lists (roster : Roster κ ν) (rows : List (Slot × κ × ν)) : Prop where
  represents : roster.list.Represents rows
  indexed : Indexed roster.index rows

/-- The entries of a roster, in whichever slots they are. -/
def Holds (roster : Roster κ ν) (entries : Lineup κ ν) : Prop :=
  ∃ rows, Lists roster rows ∧ rows.map Prod.snd = entries

theorem Lists.holds (lists : Lists roster rows) : Holds roster (rows.map Prod.snd) :=
  ⟨rows, lists, rfl⟩

/-- A key has neither a slot nor a row, or the rows are cut at the only one of its. -/
theorem Lists.locate (lists : Lists roster rows) (key : κ) :
    (roster.index[key]? = none ∧ Lineup.Lacks (rows.map Prod.snd) key) ∨
      ∃ above slot value below, rows = above ++ (slot, key, value) :: below ∧
        roster.index[key]? = some slot ∧ Lineup.Lacks (above.map Prod.snd) key ∧
          Lineup.Lacks (below.map Prod.snd) key := by
  cases found : roster.index[key]? with
  | none => exact .inl ⟨rfl, lists.indexed.lacks found⟩
  | some slot =>
      obtain ⟨value, row⟩ := (lists.indexed.slot_iff key slot).mp found
      obtain ⟨above, below, rfl⟩ := List.append_of_mem row
      have alone := (lists.indexed.perm List.perm_middle).lacks_rest
      rw [List.map_append, Lineup.lacks_append_iff] at alone
      exact .inr ⟨above, slot, value, below, rfl, rfl, alone⟩

/-! ## What an operation does at the slot of a key -/

theorem promote_of_indexed (indexed : roster.index[key]? = some slot) :
    roster.promote key = ((roster.list.moveToFront slot).1,
      { list := (roster.list.moveToFront slot).2, index := roster.index }) := by
  rw [promote, indexed]

theorem replace_of_indexed (indexed : roster.index[key]? = some slot)
    (stored : roster.list.get? slot = some (key, value)) (newValue : ν) :
    roster.replace key newValue = (some value,
      { list := (roster.list.replace slot (key, newValue)).2, index := roster.index }) := by
  rw [replace, indexed]
  simp only [stored]

theorem remove_of_indexed (indexed : roster.index[key]? = some slot) :
    roster.remove key = ((roster.list.remove slot).1.map Prod.snd,
      { list := (roster.list.remove slot).2, index := roster.index.erase key }) := by
  rw [remove, indexed]

theorem popBack_of_some (popped : roster.list.popBack.1 = some (key, value)) :
    roster.popBack = (some (key, value),
      { list := roster.list.popBack.2, index := roster.index.erase key }) := by
  rw [popBack]
  generalize roster.list.popBack = outcome at popped
  obtain ⟨entry, rest⟩ := outcome
  cases popped
  rfl

/-! ## What can be read -/

theorem holds_empty : Holds (empty : Roster κ ν) [] :=
  ⟨[], ⟨LinkedList.represents_empty, .empty⟩, rfl⟩

namespace Holds

variable (holds : Holds roster entries)
include holds

/-- No key has two entries. -/
theorem distinct : (entries.map Prod.fst).Nodup := by
  obtain ⟨rows, lists, rfl⟩ := holds
  rw [List.map_map]
  exact lists.indexed.distinct

theorem size_eq : roster.size = entries.length := by
  obtain ⟨rows, lists, rfl⟩ := holds
  rw [List.length_map]
  exact lists.indexed.size

theorem toList_eq : roster.toList = entries := by
  obtain ⟨rows, lists, rfl⟩ := holds
  exact lists.represents.toList_eq

theorem back?_eq : roster.back? = entries.getLast? := by
  obtain ⟨rows, lists, rfl⟩ := holds
  rw [List.getLast?_map]
  exact lists.represents.back?_eq

theorem get?_eq (key : κ) : roster.get? key = entries.lookup key := by
  obtain ⟨rows, lists, rfl⟩ := holds
  rcases lists.locate key with
    ⟨unindexed, lacks⟩ | ⟨above, slot, value, below, rfl, indexed, lacksAbove, -⟩
  · rw [get?, entry?, unindexed, Lineup.lookup_eq_none_iff.mpr lacks]
    rfl
  · have stored : roster.list.get? slot = some (key, value) :=
      lists.represents.get?_eq_some_iff.mpr (by simp)
    rw [List.map_append, List.map_cons, Lineup.lookup_split lacksAbove, get?, entry?, indexed,
      Option.bind_some, stored, Option.map_some]

theorem contains_eq (key : κ) : roster.contains key = (entries.lookup key).isSome := by
  obtain ⟨rows, lists, rfl⟩ := holds
  rw [contains, Std.HashMap.contains_eq_isSome_getElem?]
  rcases lists.locate key with
    ⟨unindexed, lacks⟩ | ⟨above, slot, value, below, rfl, indexed, lacksAbove, -⟩
  · rw [unindexed, Lineup.lookup_eq_none_iff.mpr lacks]
    rfl
  · rw [indexed, List.map_append, List.map_cons, Lineup.lookup_split lacksAbove]
    rfl

/-- The rank of a key is its position among the entries. -/
theorem rank?_eq (key : κ) : roster.rank? key = entries.findIdx? (·.1 == key) := by
  rw [rank?, holds.contains_eq key, holds.toList_eq]
  cases found : entries.lookup key with
  | some value => rfl
  | none =>
      refine (List.findIdx?_eq_none_iff.mpr fun entry member => ?_).symm
      exact beq_eq_false_iff_ne.mpr (Lineup.lookup_eq_none_iff.mp found entry member)

/-- The entries are those of list and index, which agree about them. -/
theorem check_eq {capacity : Nat} (fits : entries.length ≤ capacity) :
    roster.check capacity = .ok () := by
  obtain ⟨rows, lists, rfl⟩ := holds
  have sameSize : roster.list.size = roster.index.size :=
    lists.represents.size_eq.trans lists.indexed.size.symm
  have bounded : ¬ capacity < roster.index.size := by
    rw [lists.indexed.size]
    rw [List.length_map] at fits
    exact Nat.not_lt_of_le fits
  rw [check, if_neg (not_not_intro sameSize), if_neg bounded, if_pos ?_]
  · rfl
  · apply List.all_eq_true.mpr
    rintro ⟨key, slot⟩ member
    obtain ⟨value, row⟩ := (lists.indexed.slot_iff key slot).mp
      (Std.HashMap.mem_toList_iff_getElem?_eq_some.mp member)
    have stored := lists.represents.get?_eq_some_iff.mpr row
    simp [stored]

/-! ## What changes the roster -/

theorem promote (key : κ) :
    (roster.promote key).1 = (entries.lookup key).isSome ∧
      Holds (roster.promote key).2 (entries.promoted key) := by
  obtain ⟨rows, lists, rfl⟩ := holds
  rcases lists.locate key with
    ⟨unindexed, lacks⟩ | ⟨above, slot, value, below, rfl, indexed, lacksAbove, lacksBelow⟩
  · rw [Roster.promote, unindexed, Lineup.promoted_of_lacks lacks,
      Lineup.lookup_eq_none_iff.mpr lacks]
    exact ⟨rfl, lists.holds⟩
  · obtain ⟨moved, represents⟩ := lists.represents.moveToFront
    rw [promote_of_indexed indexed, List.map_append, List.map_cons, Lineup.lookup_split lacksAbove,
      Lineup.promoted_split lacksAbove lacksBelow, ← List.map_append]
    exact ⟨moved, _, ⟨represents, lists.indexed.perm List.perm_middle⟩, rfl⟩

theorem replace (key : κ) (value : ν) :
    (roster.replace key value).1 = entries.lookup key ∧
      Holds (roster.replace key value).2 (entries.written key value) := by
  obtain ⟨rows, lists, rfl⟩ := holds
  rcases lists.locate key with
    ⟨unindexed, lacks⟩ | ⟨above, slot, old, below, rfl, indexed, lacksAbove, lacksBelow⟩
  · rw [Roster.replace, unindexed, Lineup.written_of_lacks lacks,
      Lineup.lookup_eq_none_iff.mpr lacks]
    exact ⟨rfl, lists.holds⟩
  · have stored : roster.list.get? slot = some (key, old) :=
      lists.represents.get?_eq_some_iff.mpr (by simp)
    have represents := (lists.represents.replace (key, value)).2
    have reindexed := ((lists.indexed.perm List.perm_middle).replace value).perm
      List.perm_middle.symm
    rw [replace_of_indexed indexed stored, List.map_append, List.map_cons,
      Lineup.lookup_split lacksAbove, Lineup.written_split lacksAbove lacksBelow]
    exact ⟨rfl, above ++ (slot, key, value) :: below, ⟨represents, reindexed⟩, by simp⟩

/-- A new entry comes first. -/
theorem pushFront (absent : entries.lookup key = none) (value : ν) :
    Holds (roster.pushFront key value) ((key, value) :: entries) := by
  obtain ⟨rows, lists, rfl⟩ := holds
  have lacks := Lineup.lookup_eq_none_iff.mp absent
  rcases lists.locate key with ⟨unindexed, -⟩ | ⟨above, slot, old, below, rfl, -⟩
  · have represents := lists.represents.pushFront (key, value)
    have indexed := lists.indexed.insert unindexed (roster.list.pushFront (key, value)).1 value
    exact ⟨_, ⟨represents, indexed⟩, rfl⟩
  · exact absurd rfl (lacks (key, old) (by simp))

theorem remove (key : κ) :
    (roster.remove key).1 = entries.lookup key ∧
      Holds (roster.remove key).2 (entries.without key) := by
  obtain ⟨rows, lists, rfl⟩ := holds
  rcases lists.locate key with
    ⟨unindexed, lacks⟩ | ⟨above, slot, value, below, rfl, indexed, lacksAbove, lacksBelow⟩
  · rw [Roster.remove, unindexed, Lineup.without_of_lacks lacks,
      Lineup.lookup_eq_none_iff.mpr lacks]
    exact ⟨rfl, lists.holds⟩
  · obtain ⟨removed, represents⟩ := lists.represents.remove
    rw [remove_of_indexed indexed, List.map_append, List.map_cons, Lineup.lookup_split lacksAbove,
      Lineup.without_split lacksAbove lacksBelow, ← List.map_append]
    refine ⟨congrArg (Option.map Prod.snd) removed, Lists.holds ⟨represents, ?_⟩⟩
    exact (lists.indexed.perm List.perm_middle).erase

theorem popBack :
    roster.popBack.1 = entries.getLast? ∧ Holds roster.popBack.2 entries.dropLast := by
  obtain ⟨rows, lists, rfl⟩ := holds
  rcases List.eq_nil_or_concat rows with rfl | ⟨front, ⟨slot, key, value⟩, rfl⟩
  · have unchanged := lists.represents.popBack_nil
    rw [Roster.popBack, unchanged]
    exact ⟨rfl, lists.holds⟩
  · rw [List.concat_eq_append] at lists ⊢
    obtain ⟨popped, represents⟩ := lists.represents.popBack
    have last : List.Perm (front ++ [(slot, key, value)]) ((slot, key, value) :: front) :=
      List.perm_append_singleton _ _
    have forgotten := (lists.indexed.perm last).erase
    rw [popBack_of_some popped, List.map_append, List.map_singleton, List.getLast?_concat,
      List.dropLast_concat]
    exact ⟨rfl, Lists.holds ⟨represents, forgotten⟩⟩

end Holds

end GraphsAndCaches.Roster
