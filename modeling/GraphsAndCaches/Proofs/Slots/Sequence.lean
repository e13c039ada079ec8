import GraphsAndCaches.Proofs.Slots.LinkedList
import Mathlib.Data.List.Induction

/-!
# Linked lists are sequences of rows

Whatever is done to a linked list, and whatever slots are named in doing it, the list is
a sequence of rows with distinct slots. `LinkedList.rows` reads this sequence off the
nodes, from the front along the links. `Step` says what each operation does to a
sequence and what it answers, and `refusal` what it answers when it names a slot without
a node; then it does nothing at all.

`Sound` collects what a reader of the links may rely on: both directions lead through the
same slots and come to an end, and the check of the list succeeds. Every run of
operations from the empty list keeps a representation by rows, from which all of this
follows.
-/

namespace GraphsAndCaches.LinkedList

universe u
variable {α : Type u}

/-! ## Definitions -/

/-- The rows of at most `length` nodes from `current` toward the back. -/
def rowsFrom (nodes : Arena (Node α)) : Nat → Option Slot → List (Slot × α)
  | length + 1, some slot =>
      match nodes.get? slot with
      | some node => (slot, node.value) :: rowsFrom nodes length node.older
      | none => []
  | _, _ => []

/-- The slots of a list with their values, from front to back. -/
def rows (list : LinkedList α) : List (Slot × α) :=
  rowsFrom list.nodes list.size list.newest

/-- Following one link from a place on, again and again, visits exactly these slots and
then comes to an end. -/
inductive Walk (nodes : Arena (Node α)) (link : Node α → Option Slot) :
    Option Slot → List Slot → Prop where
  | finish : Walk nodes link none []
  | visit {slot : Slot} {node : Node α} {rest : List Slot}
      (stored : nodes.get? slot = some node) (onward : Walk nodes link (link node) rest) :
      Walk nodes link (some slot) (slot :: rest)

/-- What can be read from a list is its rows. -/
structure Sound (list : LinkedList α) : Prop where
  /-- No two rows have the same slot. -/
  distinct : (list.rows.map Prod.fst).Nodup
  /-- The live slots are those of the rows, and hold their values. -/
  get?_iff : ∀ slot value, list.get? slot = some value ↔ (slot, value) ∈ list.rows
  /-- The links toward the back lead from the front through all slots. -/
  backward : Walk list.nodes Node.older list.newest (list.rows.map Prod.fst)
  /-- The links toward the front lead from the back through all slots. -/
  forward : Walk list.nodes Node.newer list.oldest (list.rows.map Prod.fst).reverse
  toList_eq : list.toList = list.rows.map Prod.snd
  size_eq : list.size = list.rows.length
  isConsistent : list.isConsistent = true

namespace Operation

/-- The slot that an operation names. -/
def target? : Operation α → Option Slot
  | .remove slot | .moveToFront slot | .get slot | .set slot _ | .contains slot => some slot
  | _ => none

/-- The answer to an operation that names a slot without a node. -/
def refusal : Operation α → SlotAnswer α
  | .moveToFront _ | .contains _ => .flag false
  | _ => .value none

end Operation

/-- What an operation on a sequence of rows answers, and the rows that it leaves. A new
row gets any slot that no other row has. -/
inductive Step : List (Slot × α) → Operation α → SlotAnswer α → List (Slot × α) → Prop where
  | pushFront {rows : List (Slot × α)} {slot : Slot} (value : α)
      (fresh : slot ∉ rows.map Prod.fst) :
      Step rows (.pushFront value) (.slot (some slot)) ((slot, value) :: rows)
  | popBack (front : List (Slot × α)) (slot : Slot) (value : α) :
      Step (front ++ [(slot, value)]) .popBack (.value (some value)) front
  | popBackEmpty : Step [] .popBack (.value none) []
  | remove (above below : List (Slot × α)) (slot : Slot) (value : α) :
      Step (above ++ (slot, value) :: below) (.remove slot) (.value (some value))
        (above ++ below)
  | moveToFront (above below : List (Slot × α)) (slot : Slot) (value : α) :
      Step (above ++ (slot, value) :: below) (.moveToFront slot) (.flag true)
        ((slot, value) :: (above ++ below))
  | set (above below : List (Slot × α)) (slot : Slot) (old value : α) :
      Step (above ++ (slot, old) :: below) (.set slot value) (.value (some old))
        (above ++ (slot, value) :: below)
  | refuse {rows : List (Slot × α)} {operation : Operation α} {slot : Slot}
      (named : operation.target? = some slot) (absent : slot ∉ rows.map Prod.fst) :
      Step rows operation operation.refusal rows
  | clear (rows : List (Slot × α)) : Step rows .clear .done []
  | front (rows : List (Slot × α)) :
      Step rows .front (.value (rows.head?.map Prod.snd)) rows
  | back (rows : List (Slot × α)) :
      Step rows .back (.value (rows.getLast?.map Prod.snd)) rows
  | backSlot (rows : List (Slot × α)) :
      Step rows .backSlot (.slot (rows.getLast?.map Prod.fst)) rows
  | get {rows : List (Slot × α)} {slot : Slot} {value : α} (row : (slot, value) ∈ rows) :
      Step rows (.get slot) (.value (some value)) rows
  | contains {rows : List (Slot × α)} {slot : Slot} (live : slot ∈ rows.map Prod.fst) :
      Step rows (.contains slot) (.flag true) rows
  | isEmpty (rows : List (Slot × α)) : Step rows .isEmpty (.flag rows.isEmpty) rows

/-! ## Walks along a chain -/

variable {list : LinkedList α} {nodes : Arena (Node α)} {rows : List (Slot × α)}
variable {slot : Slot} {value : α} {before after : Option Slot}

/-- The slot of the last row, if there is a row. -/
theorem lastSlot_eq_getLast? (rows : List (Slot × α)) :
    lastSlot rows none = rows.getLast?.map Prod.fst := by
  induction rows using List.reverseRecOn with
  | nil => rfl
  | append_singleton front row _ =>
      rw [lastSlot_append, List.getLast?_concat]
      rfl

/-- The rows that are read off a chain are its own. -/
theorem Chained.rowsFrom_eq (chained : Chained nodes before rows none) :
    rowsFrom nodes rows.length (firstSlot rows none) = rows := by
  induction rows generalizing before with
  | nil => rfl
  | cons row rest inductionHypothesis =>
      obtain ⟨stored, chainedRest⟩ := chained
      have tail := inductionHypothesis chainedRest
      change rowsFrom nodes (rest.length + 1) (some row.1) = row :: rest
      rw [rowsFrom, stored]
      exact congrArg (row :: ·) tail

/-- From the first row of a chain the links toward the back lead through all rows. -/
theorem Chained.walk_older (chained : Chained nodes before rows none) :
    Walk nodes Node.older (firstSlot rows none) (rows.map Prod.fst) := by
  induction rows generalizing before with
  | nil => exact .finish
  | cons row rest inductionHypothesis =>
      obtain ⟨stored, chainedRest⟩ := chained
      exact .visit stored (inductionHypothesis chainedRest)

/-- From the last row of a chain the links toward the front lead through all rows. The
chain is cut at its last row, whose link leads to the last row of the rest. -/
theorem Chained.walk_newer (chained : Chained nodes none rows after) :
    Walk nodes Node.newer (lastSlot rows none) (rows.map Prod.fst).reverse := by
  induction rows using List.reverseRecOn generalizing after with
  | nil => exact .finish
  | append_singleton front row inductionHypothesis =>
      obtain ⟨chainedFront, stored, -⟩ := (chained_append none after front [row]).mp chained
      rw [lastSlot_append, List.map_append, List.reverse_append]
      exact .visit stored (inductionHypothesis chainedFront)

/-- The check of the links succeeds along a chain that ends at the back of the list. -/
theorem Chained.linksAgree_eq (chained : Chained nodes before rows none) :
    linksAgree nodes (lastSlot rows before) rows.length before (firstSlot rows none) = true := by
  induction rows generalizing before with
  | nil => rfl
  | cons row rest inductionHypothesis =>
      obtain ⟨slot, value⟩ := row
      obtain ⟨stored, chainedRest⟩ := chained
      have tail := inductionHypothesis chainedRest
      have last : ((firstSlot rest none).isSome || lastSlot rest (some slot) == some slot) =
          true := by
        cases rest with
        | nil => exact beq_self_eq_true (some slot)
        | cons next others => rfl
      change linksAgree nodes (lastSlot rest (some slot)) (rest.length + 1) before (some slot) =
        true
      rw [linksAgree, stored]
      simp only [beq_self_eq_true, last, tail, Bool.and_self]

/-! ## What is represented is sound -/

namespace Represents

/-- Reading the rows off a list yields those that it represents. -/
theorem rows_eq (represented : Represents list rows) : list.rows = rows := by
  rw [LinkedList.rows, represented.size_eq, represented.linked.newest]
  exact represented.linked.chained.rowsFrom_eq

theorem isConsistent_eq (represented : Represents list rows) : list.isConsistent = true := by
  have agree := represented.linked.chained.linksAgree_eq
  rw [isConsistent, represented.linked.newest, represented.linked.oldest, represented.size_eq]
  cases rows with
  | nil => rfl
  | cons row rest =>
      cases last : lastSlot (row :: rest) none with
      | some slot =>
          rw [last] at agree
          exact agree
      | none =>
          rw [lastSlot_eq_getLast?, Option.map_eq_none_iff, List.getLast?_eq_none_iff] at last
          exact absurd last (List.cons_ne_nil row rest)

theorem sound (represented : Represents list rows) : Sound list := by
  have same := represented.rows_eq
  have linked := represented.linked
  refine ⟨?_, ?_, ?_, ?_, ?_, ?_, represented.isConsistent_eq⟩
  · exact same ▸ represented.holds.distinct
  · intro slot value
    rw [same]
    exact represented.get?_eq_some_iff
  · rw [same, linked.newest]
    exact linked.chained.walk_older
  · rw [same, linked.oldest]
    exact linked.chained.walk_newer
  · rw [same]
    exact represented.toList_eq
  · rw [same]
    exact represented.size_eq

end Represents

/-! ## Refusals -/

/-- An operation that names a slot without a node answers with its refusal and leaves the
list as it was, down to the last slot. -/
theorem perform_of_absent {operation : Operation α} (named : operation.target? = some slot)
    (absent : list.get? slot = none) : list.perform operation = (operation.refusal, list) := by
  have noNode : list.nodes.get? slot = none := Option.map_eq_none_iff.mp absent
  cases operation <;> cases named
  · simp only [perform, remove_of_absent absent, Operation.refusal]
  · simp only [perform, moveToFront_of_absent absent, Operation.refusal]
  · simp only [perform, absent, Operation.refusal]
  · simp only [perform, replace, absent, Arena.modify_of_get?_eq_none noNode, Operation.refusal]
  · simp only [perform, contains_eq_false_iff.mpr absent, Operation.refusal]

/-! ## Steps and runs -/

namespace Represents

/-- An operation on a represented list takes a step of its rows.

The slot that an operation names either has no row, and the operation is refused, or the
rows are cut at the row that has it. -/
theorem perform (represented : Represents list rows) (operation : Operation α) :
    ∃ next, Step rows operation (list.perform operation).1 next ∧
      Represents (list.perform operation).2 next := by
  have refused : ∀ {slot}, operation.target? = some slot → slot ∉ rows.map Prod.fst →
      ∃ next, Step rows operation (list.perform operation).1 next ∧
        Represents (list.perform operation).2 next := by
    intro slot named absent
    rw [perform_of_absent named (represented.get?_eq_none absent)]
    exact ⟨rows, .refuse named absent, represented⟩
  have cut : ∀ {slot}, slot ∈ rows.map Prod.fst →
      ∃ above value below, rows = above ++ (slot, value) :: below := by
    intro slot live
    obtain ⟨⟨slot, value⟩, row, rfl⟩ := List.mem_map.mp live
    obtain ⟨above, below, rfl⟩ := List.append_of_mem row
    exact ⟨above, value, below, rfl⟩
  cases operation with
  | pushFront value =>
      have pushed := represented.pushFront value
      exact ⟨_, .pushFront value (List.nodup_cons.mp pushed.holds.distinct).1, pushed⟩
  | popBack =>
      rcases List.eq_nil_or_concat rows with rfl | ⟨front, ⟨slot, value⟩, rfl⟩
      · simp only [LinkedList.perform, represented.popBack_nil]
        exact ⟨[], .popBackEmpty, represented⟩
      · rw [List.concat_eq_append] at represented ⊢
        obtain ⟨popped, rest⟩ := represented.popBack
        simp only [LinkedList.perform, popped]
        exact ⟨front, .popBack front slot value, rest⟩
  | remove slot =>
      by_cases live : slot ∈ rows.map Prod.fst
      · obtain ⟨above, value, below, rfl⟩ := cut live
        obtain ⟨removed, rest⟩ := represented.remove
        simp only [LinkedList.perform, removed]
        exact ⟨_, .remove above below slot value, rest⟩
      · exact refused rfl live
  | moveToFront slot =>
      by_cases live : slot ∈ rows.map Prod.fst
      · obtain ⟨above, value, below, rfl⟩ := cut live
        obtain ⟨moved, reordered⟩ := represented.moveToFront
        simp only [LinkedList.perform, moved]
        exact ⟨_, .moveToFront above below slot value, reordered⟩
      · exact refused rfl live
  | set slot value =>
      by_cases live : slot ∈ rows.map Prod.fst
      · obtain ⟨above, old, below, rfl⟩ := cut live
        obtain ⟨replaced, written⟩ := represented.replace value
        simp only [LinkedList.perform, replaced]
        exact ⟨_, .set above below slot old value, written⟩
      · exact refused rfl live
  | get slot =>
      by_cases live : slot ∈ rows.map Prod.fst
      · obtain ⟨⟨slot, value⟩, row, rfl⟩ := List.mem_map.mp live
        simp only [LinkedList.perform, represented.get?_eq_some_iff.mpr row]
        exact ⟨rows, .get row, represented⟩
      · exact refused rfl live
  | contains slot =>
      by_cases live : slot ∈ rows.map Prod.fst
      · obtain ⟨⟨slot, value⟩, row, rfl⟩ := List.mem_map.mp live
        have present : list.contains slot = true := by
          rw [← Bool.not_eq_false, contains_eq_false_iff, represented.get?_eq_some_iff.mpr row]
          exact Option.some_ne_none value
        simp only [LinkedList.perform, present]
        exact ⟨rows, .contains live, represented⟩
      · exact refused rfl live
  | clear => exact ⟨[], .clear rows, represents_empty⟩
  | front =>
      simp only [LinkedList.perform, represented.front?_eq]
      exact ⟨rows, .front rows, represented⟩
  | back =>
      simp only [LinkedList.perform, represented.back?_eq]
      exact ⟨rows, .back rows, represented⟩
  | backSlot =>
      simp only [LinkedList.perform, represented.linked.oldest, lastSlot_eq_getLast?]
      exact ⟨rows, .backSlot rows, represented⟩
  | isEmpty =>
      simp only [LinkedList.perform, represented.isEmpty_eq]
      exact ⟨rows, .isEmpty rows, represented⟩

/-- A run of operations leads from a represented list to a represented list. -/
theorem run (represented : Represents list rows) (operations : List (Operation α)) :
    ∃ final, Represents (list.run operations).2 final := by
  induction operations generalizing list rows with
  | nil => exact ⟨rows, represented⟩
  | cons operation rest inductionHypothesis =>
      obtain ⟨next, -, representedNext⟩ := represented.perform operation
      exact inductionHypothesis representedNext

end Represents

/-- Whatever operations led to a list from the empty one, the list is sound, and the next
operation, whichever it is, takes a step of the rows. An operation that names a slot
without a node is refused and leaves the whole list as it was. -/
theorem run_steps (operations : List (Operation α)) :
    let list := ((empty : LinkedList α).run operations).2
    Sound list ∧
      ∀ operation : Operation α,
        Step list.rows operation (list.perform operation).1 (list.perform operation).2.rows ∧
          ∀ slot, operation.target? = some slot → slot ∉ list.rows.map Prod.fst →
            list.perform operation = (operation.refusal, list) := by
  obtain ⟨rows, represented⟩ := represents_empty.run operations
  intro list
  change Represents list rows at represented
  refine ⟨represented.sound, fun operation => ⟨?_, ?_⟩⟩
  · obtain ⟨next, step, representedNext⟩ := represented.perform operation
    rw [represented.rows_eq, representedNext.rows_eq]
    exact step
  · intro slot named absent
    rw [represented.rows_eq] at absent
    exact perform_of_absent named (represented.get?_eq_none absent)

-- A slot may come back with a new row once its old row is gone.
example : ((empty : LinkedList Char).run
    [.pushFront 'a', .pushFront 'b', .remove 0, .remove 0, .pushFront 'c']).2.rows =
      [(0, 'c'), (1, 'b')] := by
  decide

end GraphsAndCaches.LinkedList
