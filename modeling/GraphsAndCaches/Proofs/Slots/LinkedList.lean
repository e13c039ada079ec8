import GraphsAndCaches.Proofs.Slots.Arena
import GraphsAndCaches.Proofs.Slots.Chain

/-!
# Linked lists represent lists of rows

A linked list represents the rows that a walk from the front meets: its nodes hold
exactly the values of these rows, and its links pass through exactly these rows.

The two halves of this are kept apart. What the nodes hold does not depend on the order
of the rows, and no change of a link affects it. Between taking a node out of the links
and linking or freeing it, a list holds one row that its links pass by. Every operation
that moves, adds or takes away a node goes through such a state.
-/

namespace GraphsAndCaches.LinkedList

universe u
variable {α : Type u} {list : LinkedList α} {nodes : Arena (Node α)}
variable {rows above below : List (Slot × α)} {slot : Slot} {value : α}

/-! ## What the nodes hold -/

/-- The nodes hold exactly the values of the rows, wherever their links lead. -/
structure Holds (nodes : Arena (Node α)) (rows : List (Slot × α)) : Prop where
  wellFormed : nodes.WellFormed
  distinct : (rows.map Prod.fst).Nodup
  live : nodes.live = rows.length
  value_iff : ∀ slot value, (nodes.get? slot).map Node.value = some value ↔ (slot, value) ∈ rows

namespace Holds

theorem empty : Holds (Arena.empty : Arena (Node α)) [] where
  wellFormed := Arena.wellFormed_empty
  distinct := List.nodup_nil
  live := rfl
  value_iff slot value := by simp

/-- The order of the rows does not matter. -/
theorem perm {other : List (Slot × α)} (holds : Holds nodes rows) (same : rows.Perm other) :
    Holds nodes other where
  wellFormed := holds.wellFormed
  distinct := (same.map Prod.fst).nodup_iff.mp holds.distinct
  live := holds.live.trans same.length_eq
  value_iff slot value := (holds.value_iff slot value).trans same.mem_iff

/-- A slot that no row names holds no node. -/
theorem get?_eq_none (holds : Holds nodes rows) (absent : slot ∉ rows.map Prod.fst) :
    nodes.get? slot = none := by
  cases found : nodes.get? slot with
  | none => rfl
  | some node =>
      have row := (holds.value_iff slot node.value).mp (by rw [found]; rfl)
      exact absurd (List.mem_map_of_mem row) absent

/-- The node of a row has the value of the row. -/
theorem exists_node (holds : Holds nodes ((slot, value) :: rows)) :
    ∃ node, nodes.get? slot = some node ∧ node.value = value :=
  Option.map_eq_some_iff.mp ((holds.value_iff slot value).mpr List.mem_cons_self)

/-- The values are not affected by a change of the links. -/
theorem modify (holds : Holds nodes rows) (slot : Slot) {change : Node α → Node α}
    (keeps : ∀ node, (change node).value = node.value) :
    Holds (nodes.modify slot change) rows where
  wellFormed := holds.wellFormed.modify slot change
  distinct := holds.distinct
  live := holds.live
  value_iff other value := by
    rw [← holds.value_iff other value, Arena.get?_modify]
    split
    · cases nodes.get? other with
      | none => rfl
      | some node => simp [keeps]
    · rfl

theorem setNewer (holds : Holds list.nodes rows) (slot? newer : Option Slot) :
    Holds (list.setNewer slot? newer).nodes rows := by
  cases slot? with
  | none => exact holds
  | some slot => exact holds.modify slot fun _ => rfl

theorem setOlder (holds : Holds list.nodes rows) (slot? older : Option Slot) :
    Holds (list.setOlder slot? older).nodes rows := by
  cases slot? with
  | none => exact holds
  | some slot => exact holds.modify slot fun _ => rfl

/-- A change of a value changes its row and no other. -/
theorem replace (holds : Holds nodes ((slot, value) :: rows)) (newValue : α) :
    Holds (nodes.modify slot ({ · with value := newValue })) ((slot, newValue) :: rows) where
  wellFormed := holds.wellFormed.modify slot _
  distinct := holds.distinct
  live := holds.live
  value_iff other found := by
    have absent : slot ∉ rows.map Prod.fst := (List.nodup_cons.mp holds.distinct).1
    rw [Arena.get?_modify, List.mem_cons]
    by_cases same : slot = other
    · subst same
      obtain ⟨node, stored, -⟩ := holds.exists_node
      have noRow : (slot, found) ∉ rows := fun row => absent (List.mem_map_of_mem row)
      simp [stored, noRow, eq_comm]
    · have before := holds.value_iff other found
      have different : ¬ other = slot := fun equal => same equal.symm
      rw [if_neg same, before, List.mem_cons]
      simp [different]

/-- An insertion adds the row of a slot that no other row names. -/
theorem insert (holds : Holds nodes rows) (node : Node α) :
    Holds (nodes.insert node).2 (((nodes.insert node).1, node.value) :: rows) where
  wellFormed := holds.wellFormed.insert node
  distinct := by
    refine List.nodup_cons.mpr ⟨fun member => ?_, holds.distinct⟩
    obtain ⟨⟨slot, value⟩, row, named⟩ := List.mem_map.mp member
    have found := (holds.value_iff slot value).mpr row
    rw [show slot = (nodes.insert node).1 from named,
      Arena.get?_fst_insert holds.wellFormed] at found
    cases found
  live := by rw [Arena.live_insert, holds.live, List.length_cons]
  value_iff other value := by
    rw [Arena.get?_snd_insert holds.wellFormed, List.mem_cons]
    by_cases same : (nodes.insert node).1 = other
    · have free : (other, value) ∉ rows := fun row => by
        have found := (holds.value_iff other value).mpr row
        rw [← same, Arena.get?_fst_insert holds.wellFormed] at found
        cases found
      rw [if_pos same]
      simp [free, same, eq_comm]
    · have different : ¬ other = (nodes.insert node).1 := fun equal => same equal.symm
      rw [if_neg same, holds.value_iff other value]
      simp [different]

/-- A removal takes its own row away. -/
theorem remove (holds : Holds nodes ((slot, value) :: rows)) :
    ((nodes.remove slot).1.map Node.value = some value) ∧ Holds (nodes.remove slot).2 rows := by
  obtain ⟨node, stored, valued⟩ := holds.exists_node
  have absent : slot ∉ rows.map Prod.fst := (List.nodup_cons.mp holds.distinct).1
  refine ⟨by rw [Arena.fst_remove, stored, Option.map_some, valued], ?_⟩
  refine ⟨holds.wellFormed.remove slot, (List.nodup_cons.mp holds.distinct).2, ?_, ?_⟩
  · have count := Arena.live_remove holds.wellFormed stored
    rw [holds.live, List.length_cons] at count
    exact Nat.succ.inj count
  · intro other found
    rw [Arena.get?_snd_remove]
    by_cases same : slot = other
    · subst same
      have noRow : (slot, found) ∉ rows := fun row => absent (List.mem_map_of_mem row)
      simp [noRow]
    · have different : ¬ other = slot := fun equal => same equal.symm
      rw [if_neg same, holds.value_iff other found, List.mem_cons]
      simp [different]

end Holds

/-! ## Representation -/

/-- The nodes hold the rows, and the links pass through them in order. -/
structure Represents (list : LinkedList α) (rows : List (Slot × α)) : Prop where
  holds : Holds list.nodes rows
  linked : Linked list rows

/-- The nodes hold one row more than the links pass through. -/
structure Detached (list : LinkedList α) (slot : Slot) (value : α)
    (rows : List (Slot × α)) : Prop where
  holds : Holds list.nodes ((slot, value) :: rows)
  linked : Linked list rows

theorem represents_empty : Represents (empty : LinkedList α) [] :=
  ⟨.empty, rfl, rfl, trivial⟩

/-- A detached node is linked in front of all others. -/
theorem Detached.linkFront (detached : Detached list slot value rows) :
    Represents (list.linkFront slot) ((slot, value) :: rows) := by
  have distinct := List.nodup_cons.mp detached.holds.distinct
  have outside : ∀ other ∈ rows.map Prod.fst, some slot ≠ some other := by
    rintro other member same
    cases same
    exact distinct.1 member
  have unnamed : firstSlot rows none ≠ some slot := fun first =>
    distinct.1 (mem_of_firstSlot first)
  obtain ⟨node, stored, valued⟩ := detached.holds.exists_node
  have back : Back list none rows := ⟨detached.linked.oldest, detached.linked.chained⟩
  have behind := (back.setNewer distinct.2 (some slot)).setOlder outside list.newest
  rw [← detached.linked.newest] at behind unnamed
  refine ⟨((detached.holds.setNewer _ _).setOlder _ _).setNewer _ _, rfl, behind.oldest, ?_, ?_⟩
  · simp only [LinkedList.linkFront]
    rw [nodes_setNewer, if_pos rfl, nodes_setOlder, if_pos rfl, nodes_setNewer, if_neg unnamed,
      stored, ← valued, detached.linked.newest]
    rfl
  · apply behind.chained.congr
    intro other member
    simp only [LinkedList.linkFront]
    rw [nodes_setNewer, if_neg (outside other member)]

/-- A node is taken out of the links from wherever it is. -/
theorem Represents.unlink (represented : Represents list (above ++ (slot, value) :: below)) :
    Detached (list.unlink slot) slot value (above ++ below) := by
  have holds := represented.holds.perm List.perm_middle
  have distinct := List.nodup_cons.mp holds.distinct
  rw [List.map_append, List.nodup_append, List.mem_append, not_or] at distinct
  obtain ⟨⟨absentAbove, absentBelow⟩, distinctAbove, distinctBelow, apart⟩ := distinct
  have lastOutside : ∀ other ∈ below.map Prod.fst, lastSlot above none ≠ some other :=
    fun other member last => apart other (mem_of_lastSlot last) other member rfl
  have firstOutside : ∀ other ∈ above.map Prod.fst, firstSlot below none ≠ some other :=
    fun other member first => apart other member other (mem_of_firstSlot first) rfl
  obtain ⟨front, back⟩ := linked_append_iff.mp represented.linked
  obtain ⟨stored, chainedBelow⟩ := back.chained
  have behind : Back list (some slot) below := ⟨back.oldest, chainedBelow⟩
  -- First the last row above leads past the node, then the first row below leads back past it.
  have frontPast := (front.setOlder distinctAbove (firstSlot below none)).setNewer firstOutside
    (lastSlot above none)
  have backPast := (behind.setOlder lastOutside (firstSlot below none)).setNewer distinctBelow
    (lastSlot above none)
  have elsewhere : ∀ other, other ≠ slot → (list.unlink slot).nodes.get? other =
      ((list.setOlder (lastSlot above none) (firstSlot below none)).setNewer
        (firstSlot below none) (lastSlot above none)).nodes.get? other := by
    intro other different
    simp only [LinkedList.unlink, stored]
    rw [Arena.get?_modify, if_neg (Ne.symm different)]
  refine ⟨?_, linked_append_iff.mpr ⟨frontPast.congr ?_ ?_, backPast.congr ?_ ?_⟩⟩
  · simp only [LinkedList.unlink, stored]
    exact ((holds.setOlder _ _).setNewer _ _).modify slot fun _ => rfl
  · simp only [LinkedList.unlink, stored]
  · exact fun other member => elsewhere other fun same => absentAbove (same ▸ member)
  · simp only [LinkedList.unlink, stored]
  · exact fun other member => elsewhere other fun same => absentBelow (same ▸ member)

/-! ## What can be read -/

namespace Represents

variable (represented : Represents list rows)
include represented

theorem size_eq : list.size = rows.length := represented.holds.live

theorem isEmpty_eq : list.isEmpty = rows.isEmpty := by
  change (list.nodes.live == 0) = rows.isEmpty
  rw [represented.holds.live]
  cases rows <;> rfl

theorem toList_eq : list.toList = rows.map Prod.snd := by
  rw [toList, represented.size_eq, represented.linked.newest]
  exact represented.linked.chained.valuesFrom

theorem get?_eq_some_iff : list.get? slot = some value ↔ (slot, value) ∈ rows :=
  represented.holds.value_iff slot value

theorem get?_eq_none (absent : slot ∉ rows.map Prod.fst) : list.get? slot = none := by
  rw [get?, represented.holds.get?_eq_none absent]
  rfl

theorem front?_eq : list.front? = rows.head?.map Prod.snd := by
  rw [front?, represented.linked.newest]
  cases rows with
  | nil => rfl
  | cons row rest => exact represented.get?_eq_some_iff.mpr List.mem_cons_self

theorem back?_eq : list.back? = rows.getLast?.map Prod.snd := by
  rw [back?, represented.linked.oldest]
  rcases List.eq_nil_or_concat rows with rfl | ⟨front, ⟨slot, value⟩, rfl⟩
  · rfl
  · rw [List.concat_eq_append] at represented ⊢
    have last : lastSlot (front ++ [(slot, value)]) none = some slot := lastSlot_append _ _ _
    rw [last, List.getLast?_append_of_ne_nil _ (List.cons_ne_nil _ _)]
    exact represented.get?_eq_some_iff.mpr (by simp)

end Represents

/-! ## What changes the list -/

theorem contains_eq_false_iff : list.contains slot = false ↔ list.get? slot = none := by
  simp [contains, Arena.contains, get?]

/-- A new row comes first, in a slot that no other row names. -/
theorem Represents.pushFront (represented : Represents list rows) (value : α) :
    Represents (list.pushFront value).2 (((list.pushFront value).1, value) :: rows) := by
  have holds := represented.holds.insert { value, newer := none, older := none }
  have absent := (List.nodup_cons.mp holds.distinct).1
  refine Detached.linkFront ⟨holds, ?_⟩
  refine ⟨represented.linked.newest, represented.linked.oldest, ?_⟩
  apply represented.linked.chained.congr
  intro other member
  change (list.nodes.insert { value, newer := none, older := none }).2.get? other = _
  rw [Arena.get?_snd_insert represented.holds.wellFormed, if_neg]
  intro same
  exact absent (same ▸ member)

/-- A removal takes away the row of its slot, wherever it is, and yields its value. -/
theorem Represents.remove (represented : Represents list (above ++ (slot, value) :: below)) :
    (list.remove slot).1 = some value ∧ Represents (list.remove slot).2 (above ++ below) := by
  have detached := represented.unlink
  have absent := (List.nodup_cons.mp detached.holds.distinct).1
  obtain ⟨removed, holds⟩ := detached.holds.remove
  refine ⟨removed, holds, detached.linked.newest, detached.linked.oldest, ?_⟩
  apply detached.linked.chained.congr
  intro other member
  change ((list.unlink slot).nodes.remove slot).2.get? other = _
  rw [Arena.get?_snd_remove, if_neg]
  intro same
  exact absent (same ▸ member)

theorem remove_of_absent (absent : list.get? slot = none) : list.remove slot = (none, list) := by
  have noNode : list.nodes.get? slot = none := Option.map_eq_none_iff.mp absent
  simp only [remove, unlink, noNode, Arena.remove_of_get?_eq_none noNode, Option.map_none]

/-- The last row is taken away. -/
theorem Represents.popBack (represented : Represents list (rows ++ [(slot, value)])) :
    list.popBack.1 = some value ∧ Represents list.popBack.2 rows := by
  have last : list.oldest = some slot := by
    rw [represented.linked.oldest, lastSlot_append]
    rfl
  have removed := represented.remove
  rw [List.append_nil] at removed
  rw [LinkedList.popBack, last]
  exact removed

theorem Represents.popBack_nil (represented : Represents list []) :
    list.popBack = (none, list) := by
  rw [LinkedList.popBack, represented.linked.oldest]
  rfl

/-- The row of a slot moves to the front, and the others keep their order. -/
theorem Represents.moveToFront
    (represented : Represents list (above ++ (slot, value) :: below)) :
    (list.moveToFront slot).1 = true ∧
      Represents (list.moveToFront slot).2 ((slot, value) :: (above ++ below)) := by
  have found : list.get? slot = some value := represented.get?_eq_some_iff.mpr (by simp)
  have present : list.contains slot = true := by
    rw [← Bool.not_eq_false, contains_eq_false_iff, found]
    exact Option.some_ne_none value
  rw [LinkedList.moveToFront, if_pos present]
  by_cases first : list.newest = some slot
  · rw [if_pos first]
    refine ⟨rfl, ?_⟩
    cases above with
    | nil => exact represented
    | cons row rest =>
        have named := represented.linked.newest.symm.trans first
        have distinct := (List.nodup_cons.mp represented.holds.distinct).1
        rw [Option.some.inj named] at distinct
        exact absurd (by simp) distinct
  · rw [if_neg first]
    exact ⟨rfl, represented.unlink.linkFront⟩

theorem moveToFront_of_absent (absent : list.get? slot = none) :
    list.moveToFront slot = (false, list) := by
  rw [moveToFront, contains_eq_false_iff.mpr absent]
  rfl

/-- A value is written over the one in its row, which keeps its place. -/
theorem Represents.replace (represented : Represents list (above ++ (slot, value) :: below))
    (newValue : α) :
    (list.replace slot newValue).1 = some value ∧
      Represents (list.replace slot newValue).2 (above ++ (slot, newValue) :: below) := by
  have holds := represented.holds.perm List.perm_middle
  have distinct := (List.nodup_cons.mp holds.distinct).1
  rw [List.map_append, List.mem_append, not_or] at distinct
  obtain ⟨front, back⟩ := linked_append_iff.mp represented.linked
  obtain ⟨stored, chainedBelow⟩ := back.chained
  refine ⟨represented.get?_eq_some_iff.mpr (by simp), ?_, ?_⟩
  · exact (holds.replace newValue).perm List.perm_middle.symm
  · refine linked_append_iff.mpr ⟨front.congr rfl ?_, back.oldest, ?_, chainedBelow.congr ?_⟩
    · intro other member
      change (list.nodes.modify slot _).get? other = _
      rw [Arena.get?_modify, if_neg]
      exact fun same => distinct.1 (same ▸ member)
    · change (list.nodes.modify slot _).get? slot = _
      rw [Arena.get?_modify, if_pos rfl, stored]
      rfl
    · intro other member
      change (list.nodes.modify slot _).get? other = _
      rw [Arena.get?_modify, if_neg]
      exact fun same => distinct.2 (same ▸ member)

end GraphsAndCaches.LinkedList
