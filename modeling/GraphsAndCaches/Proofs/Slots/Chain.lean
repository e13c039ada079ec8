import GraphsAndCaches.Slots.LinkedList
import Mathlib.Data.List.Nodup

/-!
# Chains of rows

A row is a slot with the value of its node. The links of a list are those of a chain
of rows, in which each node points at the next one and back. A chain falls into chains
wherever it is cut, and depends on its own nodes only.

An operation in the middle of a list works on the end of one chain and on the beginning
of another: the front, which starts where the list says that it starts, and the back,
which ends where the list says that it ends. The two link setters extend this to a front
or a back without rows, where the list itself is what they change.
-/

namespace GraphsAndCaches.LinkedList

universe u
variable {α : Type u} {list : LinkedList α} {rows above below : List (Slot × α)}

/-! ## Chains of rows -/

/-- The slot of the first row, and `after` when there are no rows. -/
def firstSlot : List (Slot × α) → Option Slot → Option Slot
  | [], after => after
  | (slot, _) :: _, _ => some slot

/-- The slot of the last row, and `before` when there are no rows. -/
def lastSlot : List (Slot × α) → Option Slot → Option Slot
  | [], before => before
  | (slot, _) :: rest, _ => lastSlot rest (some slot)

/-- The nodes of the rows hold their values and point at one another, from `before`
the first row to `after` the last one. -/
def Chained (nodes : Arena (Node α)) : Option Slot → List (Slot × α) → Option Slot → Prop
  | _, [], _ => True
  | before, (slot, value) :: rest, after =>
      nodes.get? slot = some { value, newer := before, older := firstSlot rest after } ∧
        Chained nodes (some slot) rest after

theorem firstSlot_append (above below : List (Slot × α)) (after : Option Slot) :
    firstSlot (above ++ below) after = firstSlot above (firstSlot below after) := by
  cases above <;> rfl

theorem lastSlot_append (above below : List (Slot × α)) (before : Option Slot) :
    lastSlot (above ++ below) before = lastSlot below (lastSlot above before) := by
  induction above generalizing before with
  | nil => rfl
  | cons row rest inductionHypothesis => exact inductionHypothesis (some row.1)

/-- The first of some rows is one of them. -/
theorem mem_of_firstSlot {slot : Slot} (first : firstSlot rows none = some slot) :
    slot ∈ rows.map Prod.fst := by
  cases rows with
  | nil => cases first
  | cons row rest =>
      cases first
      exact List.mem_cons_self

/-- The last of some rows is one of them. -/
theorem mem_of_lastSlot {slot : Slot} (last : lastSlot rows none = some slot) :
    slot ∈ rows.map Prod.fst := by
  rcases List.eq_nil_or_concat rows with rfl | ⟨front, row, rfl⟩
  · cases last
  · rw [List.concat_eq_append, lastSlot_append] at last
    cases last
    simp

/-- A chain falls into chains where it is cut. -/
theorem chained_append {nodes : Arena (Node α)} (before after : Option Slot)
    (above below : List (Slot × α)) :
    Chained nodes before (above ++ below) after ↔
      Chained nodes before above (firstSlot below after) ∧
        Chained nodes (lastSlot above before) below after := by
  induction above generalizing before with
  | nil => simp [Chained, lastSlot]
  | cons row rest inductionHypothesis =>
      simp only [List.cons_append, Chained, lastSlot, inductionHypothesis, firstSlot_append,
        and_assoc]

/-- A chain depends only on its own nodes. -/
theorem Chained.congr {nodes other : Arena (Node α)} {before after : Option Slot}
    (chained : Chained nodes before rows after)
    (same : ∀ slot ∈ rows.map Prod.fst, other.get? slot = nodes.get? slot) :
    Chained other before rows after := by
  induction rows generalizing before with
  | nil => exact trivial
  | cons row rest inductionHypothesis =>
      obtain ⟨stored, chainedRest⟩ := chained
      refine ⟨(same row.1 List.mem_cons_self).trans stored, ?_⟩
      exact inductionHypothesis chainedRest fun slot member =>
        same slot (List.mem_cons_of_mem _ member)

/-- A walk along a chain meets the values of its rows in order. -/
theorem Chained.valuesFrom {nodes : Arena (Node α)} {before : Option Slot}
    (chained : Chained nodes before rows none) :
    LinkedList.valuesFrom nodes rows.length (firstSlot rows none) = rows.map Prod.snd := by
  induction rows generalizing before with
  | nil => rfl
  | cons row rest inductionHypothesis =>
      obtain ⟨stored, chainedRest⟩ := chained
      have tail := inductionHypothesis chainedRest
      change LinkedList.valuesFrom nodes (rest.length + 1) (some row.1) =
        row.2 :: rest.map Prod.snd
      rw [LinkedList.valuesFrom, stored]
      exact congrArg (row.2 :: ·) tail

/-! ## The two ends of a list -/

/-- The front of a list is a chain of these rows, which leads on to `after`. -/
structure Front (list : LinkedList α) (rows : List (Slot × α)) (after : Option Slot) : Prop where
  newest : list.newest = firstSlot rows after
  chained : Chained list.nodes none rows after

/-- The back of a list is a chain of these rows, which is reached from `before`. -/
structure Back (list : LinkedList α) (before : Option Slot) (rows : List (Slot × α)) : Prop where
  oldest : list.oldest = lastSlot rows before
  chained : Chained list.nodes before rows none

/-- The links of a list pass through exactly these rows. -/
structure Linked (list : LinkedList α) (rows : List (Slot × α)) : Prop where
  newest : list.newest = firstSlot rows none
  oldest : list.oldest = lastSlot rows none
  chained : Chained list.nodes none rows none

/-- A list is cut into a front and a back that lead to each other. -/
theorem linked_append_iff :
    Linked list (above ++ below) ↔
      Front list above (firstSlot below none) ∧ Back list (lastSlot above none) below := by
  constructor
  · intro linked
    have chains := (chained_append none none above below).mp linked.chained
    have newest := linked.newest
    have oldest := linked.oldest
    rw [firstSlot_append] at newest
    rw [lastSlot_append] at oldest
    exact ⟨⟨newest, chains.1⟩, oldest, chains.2⟩
  · rintro ⟨front, back⟩
    refine ⟨?_, ?_, (chained_append none none above below).mpr ⟨front.chained, back.chained⟩⟩
    · rw [firstSlot_append]
      exact front.newest
    · rw [lastSlot_append]
      exact back.oldest

theorem Front.congr {other : LinkedList α} {after : Option Slot} (front : Front list rows after)
    (newest : other.newest = list.newest)
    (same : ∀ slot ∈ rows.map Prod.fst, other.nodes.get? slot = list.nodes.get? slot) :
    Front other rows after :=
  ⟨newest.trans front.newest, front.chained.congr same⟩

theorem Back.congr {other : LinkedList α} {before : Option Slot} (back : Back list before rows)
    (oldest : other.oldest = list.oldest)
    (same : ∀ slot ∈ rows.map Prod.fst, other.nodes.get? slot = list.nodes.get? slot) :
    Back other before rows :=
  ⟨oldest.trans back.oldest, back.chained.congr same⟩

/-! ## Setting one link -/

/-- The link toward the front is set in the node that is named, and in no other. -/
theorem nodes_setNewer (list : LinkedList α) (slot? newer : Option Slot) (other : Slot) :
    (list.setNewer slot? newer).nodes.get? other =
      if slot? = some other then (list.nodes.get? other).map ({ · with newer })
      else list.nodes.get? other := by
  cases slot? with
  | none => simp [setNewer]
  | some slot => simp [setNewer, Arena.get?_modify]

/-- The link toward the back is set in the node that is named, and in no other. -/
theorem nodes_setOlder (list : LinkedList α) (slot? older : Option Slot) (other : Slot) :
    (list.setOlder slot? older).nodes.get? other =
      if slot? = some other then (list.nodes.get? other).map ({ · with older })
      else list.nodes.get? other := by
  cases slot? with
  | none => simp [setOlder]
  | some slot => simp [setOlder, Arena.get?_modify]

@[simp]
theorem newest_setNewer (list : LinkedList α) (slot? newer : Option Slot) :
    (list.setNewer slot? newer).newest = list.newest := by
  cases slot? <;> rfl

@[simp]
theorem oldest_setOlder (list : LinkedList α) (slot? older : Option Slot) :
    (list.setOlder slot? older).oldest = list.oldest := by
  cases slot? <;> rfl

/-- The front is unaffected when its nodes are not those whose links are set. -/
theorem Front.setNewer {after : Option Slot} (front : Front list rows after)
    {slot? : Option Slot} (outside : ∀ slot ∈ rows.map Prod.fst, slot? ≠ some slot)
    (newer : Option Slot) : Front (list.setNewer slot? newer) rows after := by
  apply front.congr (newest_setNewer list slot? newer)
  intro slot member
  rw [nodes_setNewer, if_neg (outside slot member)]

/-- The back is unaffected when its nodes are not those whose links are set. -/
theorem Back.setOlder {before : Option Slot} (back : Back list before rows)
    {slot? : Option Slot} (outside : ∀ slot ∈ rows.map Prod.fst, slot? ≠ some slot)
    (older : Option Slot) : Back (list.setOlder slot? older) before rows := by
  apply back.congr (oldest_setOlder list slot? older)
  intro slot member
  rw [nodes_setOlder, if_neg (outside slot member)]

/-- Setting the link of the last row makes the front lead to another place. When there
are no rows, the front of the list is set instead. -/
theorem Front.setOlder {after : Option Slot} (front : Front list rows after)
    (distinct : (rows.map Prod.fst).Nodup) (older : Option Slot) :
    Front (list.setOlder (lastSlot rows none) older) rows older := by
  rcases List.eq_nil_or_concat rows with rfl | ⟨start, ⟨slot, value⟩, rfl⟩
  · exact ⟨rfl, trivial⟩
  · rw [List.concat_eq_append] at front distinct ⊢
    have last : lastSlot (start ++ [(slot, value)]) none = some slot := lastSlot_append _ _ _
    have newest := front.newest
    have chains := (chained_append none after start [(slot, value)]).mp front.chained
    have stored := chains.2.1
    have absent : slot ∉ start.map Prod.fst := by
      rw [List.map_append, List.nodup_append] at distinct
      intro member
      exact distinct.2.2 slot member slot List.mem_cons_self rfl
    rw [firstSlot_append] at newest
    rw [last]
    refine ⟨?_, (chained_append none older start [(slot, value)]).mpr ⟨?_, ?_, trivial⟩⟩
    · rw [firstSlot_append]
      exact newest
    · apply chains.1.congr
      intro other member
      rw [nodes_setOlder, if_neg]
      intro same
      cases same
      exact absent member
    · rw [nodes_setOlder, if_pos rfl, stored]
      rfl

/-- Setting the link of the first row makes the back reached from another place. When
there are no rows, the back of the list is set instead. -/
theorem Back.setNewer {before : Option Slot} (back : Back list before rows)
    (distinct : (rows.map Prod.fst).Nodup) (newer : Option Slot) :
    Back (list.setNewer (firstSlot rows none) newer) newer rows := by
  cases rows with
  | nil => exact ⟨rfl, trivial⟩
  | cons row rest =>
      obtain ⟨slot, value⟩ := row
      obtain ⟨stored, chainedRest⟩ := back.chained
      have absent : slot ∉ rest.map Prod.fst := (List.nodup_cons.mp distinct).1
      refine ⟨back.oldest, ?_, chainedRest.congr fun other member => ?_⟩
      · rw [nodes_setNewer]
        simp [firstSlot, stored]
      · rw [nodes_setNewer, if_neg]
        intro same
        cases same
        exact absent member

end GraphsAndCaches.LinkedList
