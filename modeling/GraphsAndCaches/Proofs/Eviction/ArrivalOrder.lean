import GraphsAndCaches.Proofs.Eviction.History
import Mathlib.Data.List.DropRight
import Mathlib.Data.List.ReduceOption

/-!
# The order of arrival

A store from which the entry that arrived first leaves is a queue. `Queue` says what this
means without a word about policies: entries in the order of their arrival, the oldest one
first, where a new key joins at the end and a known key stays where it is. The store
answers every command as the queue does and holds its entries.

The queue is the lineup of the store read from its other end, so that the laws of lineups
do the work. What the queue cannot say is which keys a long run leaves behind. As long as
entries leave for newcomers only, these are the keys that arrived last, as many as there
is room for.
-/

namespace GraphsAndCaches

/-- Entries in the order of their arrival, the oldest one first. -/
abbrev Queue (κ ν : Type) := List (κ × ν)

namespace Queue

variable {κ ν : Type} [DecidableEq κ]

/-- A value written under a key. A resident key keeps its place. Any other key joins at the
end, and the oldest entry leaves when there is no room, unless the capacity is zero. -/
def inserted (capacity : Nat) (queue : Queue κ ν) (key : κ) (value : ν) : Queue κ ν :=
  if (queue.lookup key).isSome then
    queue.map fun entry => if entry.1 = key then (key, value) else entry
  else if capacity = 0 then queue
  else (if queue.length = capacity then queue.tail else queue) ++ [(key, value)]

/-- The reply to a command, and the entries then. Nothing that only reads moves an entry. -/
def answer (capacity : Nat) (queue : Queue κ ν) :
    BoundedStore.Command κ ν → Reply κ ν × Queue κ ν
  | .request (.insert key value) =>
      (.value (queue.lookup key), queue.inserted capacity key value)
  | .request (.get key) => (.value (queue.lookup key), queue)
  | .request (.peek key) => (.value (queue.lookup key), queue)
  | .request (.find key) => (.flag (queue.lookup key).isSome, queue)
  | .request (.erase key) => (.value (queue.lookup key), queue.filter (·.1 ≠ key))
  | .request .clear => (.done, [])
  | .request .nextErasure =>
      (.entry (if queue.length = capacity then queue.head? else none), queue)
  | .request .size => (.count queue.length, queue)
  | .request .capacity => (.count capacity, queue)
  | .request .isEmpty => (.flag queue.isEmpty, queue)
  | .request .isFull => (.flag (queue.length == capacity), queue)
  | .read key => (.value (queue.lookup key), queue)
  | .touch key => (.flag (queue.lookup key).isSome, queue)
  | .rank key => (.rank (queue.reverse.findIdx? (·.1 == key)), queue)
  | .oldest => (.entry queue.head?, queue)
  | .popOldest => (.entry queue.head?, queue.tail)
  | .entries => (.entries queue.reverse, queue)
  | .check => (.verdict none, queue)

/-- The replies to commands one after another, and the entries in the end. -/
def answers (capacity : Nat) (queue : Queue κ ν) :
    List (BoundedStore.Command κ ν) → List (Reply κ ν) × Queue κ ν
  | [] => ([], queue)
  | command :: rest =>
      let (reply, queue) := queue.answer capacity command
      let (replies, queue) := answers capacity queue rest
      (reply :: replies, queue)

/-! ## A queue is a lineup read from its other end -/

variable {queue : Queue κ ν} {capacity : Nat}

theorem lookup_reverse (distinct : (queue.map Prod.fst).Nodup) (key : κ) :
    queue.reverse.lookup key = queue.lookup key := by
  have reversed : (queue.reverse.map Prod.fst).Nodup := by
    rw [List.map_reverse]
    exact List.nodup_reverse.mpr distinct
  apply Option.ext
  intro value
  rw [Lineup.lookup_eq_some_iff reversed, Lineup.lookup_eq_some_iff distinct, List.mem_reverse]

theorem inserted_reverse (distinct : (queue.map Prod.fst).Nodup) (key : κ) (value : ν) :
    (queue.inserted capacity key value).reverse =
      Lineup.inserted .fifo capacity queue.reverse key value := by
  rw [inserted, Lineup.inserted, lookup_reverse distinct]
  split
  · exact List.map_reverse.symm
  · split
    · rfl
    · rw [List.reverse_append, Lineup.makeRoom, List.length_reverse, List.dropLast_reverse,
        apply_ite List.reverse]
      rfl

/-- The reply to a command does not depend on the end from which the entries are read. -/
theorem answer_reverse (distinct : (queue.map Prod.fst).Nodup)
    (command : BoundedStore.Command κ ν) :
    Lineup.answer .fifo capacity queue.reverse command =
      ((queue.answer capacity command).1, (queue.answer capacity command).2.reverse) := by
  have same := lookup_reverse distinct
  have unmoved : ∀ key, Lineup.used .fifo queue.reverse key = queue.reverse := fun _ => rfl
  cases command with
  | request request =>
      cases request with
      | insert key value =>
          rw [Lineup.answer, same, ← inserted_reverse distinct]
          rfl
      | erase key =>
          rw [Lineup.answer, same, Lineup.without, List.filter_reverse]
          rfl
      | nextErasure =>
          rw [Lineup.answer, Lineup.victim, List.length_reverse, List.getLast?_reverse]
          rfl
      | _ => simp only [answer, Lineup.answer, same, unmoved, List.length_reverse,
          List.isEmpty_reverse, List.reverse_nil]
  | popOldest =>
      rw [Lineup.answer, List.getLast?_reverse, List.dropLast_reverse]
      rfl
  | _ => simp only [answer, Lineup.answer, same, unmoved, List.getLast?_reverse]

end Queue

namespace Lineup

variable {κ ν : Type} [DecidableEq κ] {capacity : Nat} {entries : Lineup κ ν}

/-- While nothing is taken away, the keys of a queue change by arrivals alone: a key that
arrives comes first, and as many follow as there is room for. -/
theorem map_fst_answer_fifo {command : BoundedStore.Command κ ν}
    (fits : entries.length ≤ capacity) (kept : command.keepsEntries = true) :
    (entries.answer .fifo capacity command).2.map Prod.fst =
      ((command.arrival? fun key => (entries.lookup key).isSome).toList ++
        entries.map Prod.fst).take capacity := by
  have unchanged : entries.map Prod.fst = ([] ++ entries.map Prod.fst).take capacity := by
    rw [List.nil_append, List.take_of_length_le (by rwa [List.length_map])]
  cases command with
  | request request =>
      cases request with
      | insert key value =>
          rw [answer, BoundedStore.Command.arrival?]
          cases found : entries.lookup key with
          | none =>
              rw [inserted_of_lookup_eq_none .fifo fits found, List.map_take]
              rfl
          | some old =>
              rw [inserted, found, Option.isSome_some, if_pos rfl, map_fst_written]
              exact unchanged
      | erase key => cases kept
      | clear => cases kept
      | _ => exact unchanged
  | popOldest => cases kept
  | _ => exact unchanged

/-- The keys are those that arrived last, the last one first, as many as there is room
for. The arrivals are given command by command, with those that came last at the end. -/
def KeepsLatest (capacity : Nat) (arrivals : List (Option κ)) (entries : Lineup κ ν) : Prop :=
  entries.map Prod.fst = arrivals.reduceOption.reverse.take capacity

omit [DecidableEq κ] in
theorem keepsLatest_nil : KeepsLatest capacity [] ([] : Lineup κ ν) :=
  List.take_nil.symm

/-- A key that does not fit may as well be cut off when the next one has arrived. -/
theorem KeepsLatest.answer {arrivals : List (Option κ)} {command : BoundedStore.Command κ ν}
    (latest : KeepsLatest capacity arrivals entries) (fits : entries.length ≤ capacity)
    (kept : command.keepsEntries = true) :
    KeepsLatest capacity
      (arrivals ++ [command.arrival? fun key => (entries.lookup key).isSome])
      (entries.answer .fifo capacity command).2 := by
  rw [KeepsLatest, map_fst_answer_fifo fits kept, latest, List.reduceOption_append,
    List.reduceOption_singleton, List.reverse_append]
  cases command.arrival? fun key => (entries.lookup key).isSome with
  | none =>
      change (List.take _ _).take _ = _
      rw [List.take_take, Nat.min_self]
      rfl
  | some key =>
      change (key :: List.take _ _).take _ = (key :: arrivals.reduceOption.reverse).take _
      cases capacity with
      | zero => rfl
      | succ room =>
          rw [List.take_succ_cons, List.take_succ_cons, List.take_take,
            Nat.min_eq_left (Nat.le_succ room)]

end Lineup

namespace BoundedStore

variable {κ ν : Type} [DecidableEq κ] [Hashable κ] {store : FifoStore κ ν} {capacity : Nat}

/-- A run of commands is answered as the queue answers it, command by command. -/
theorem Holds.run_queue {queue : Queue κ ν} (holds : store.Holds capacity queue.reverse)
    (commands : List (Command κ ν)) :
    (store.run commands).1 = (queue.answers capacity commands).1 ∧
      (store.run commands).2.Holds capacity (queue.answers capacity commands).2.reverse := by
  induction commands generalizing store queue with
  | nil => exact ⟨rfl, holds⟩
  | cons command rest inductionHypothesis =>
      have distinct : (queue.map Prod.fst).Nodup := by
        have reversed := holds.roster.distinct
        rwa [List.map_reverse, List.nodup_reverse] at reversed
      obtain ⟨reply, next⟩ := holds.perform command
      rw [Queue.answer_reverse distinct] at reply next
      obtain ⟨replies, final⟩ := inductionHypothesis next
      exact ⟨congrArg₂ List.cons reply replies, final⟩

/-- A fresh store keeps the keys that arrived last, as long as nothing is taken away. -/
theorem Holds.run_keepsLatest (fresh : store.Holds capacity []) {commands : List (Command κ ν)}
    (kept : ∀ command ∈ commands, command.keepsEntries = true) :
    Lineup.KeepsLatest capacity (store.history Command.arrival? commands)
      (store.run commands).2.toList := by
  obtain ⟨final, holds, latest⟩ :=
    Holds.run_history (fun _ fits admitted latest => latest.answer fits admitted) kept fresh
      Lineup.keepsLatest_nil
  rw [holds.toList_eq]
  exact latest

/-- A store from which the entry that arrived first leaves is a queue with an index. From
its empty state on it replies to every list of commands as the queue does, and it has the
entries of the queue at the end, whichever capacity it has. If no command takes an entry
away, its keys are then the last of those that arrived, as many as the capacity admits and
in the order in which they came. -/
theorem fifo_run_eq_answers (capacity : Nat) (commands : List (Command κ ν)) :
    let fresh : FifoStore κ ν := ofCapacity capacity
    let arrivals := (fresh.history Command.arrival? commands).reduceOption
    (fresh.run commands).1 = (Queue.answers capacity [] commands).1 ∧
      (fresh.run commands).2.toList.reverse = (Queue.answers capacity [] commands).2 ∧
        ((∀ command ∈ commands, command.keepsEntries = true) →
          (fresh.run commands).2.toList.reverse.map Prod.fst =
            arrivals.rtake (min capacity arrivals.length)) := by
  intro fresh arrivals
  have empty : fresh.Holds capacity [] := holds_ofCapacity capacity
  have emptyQueue : fresh.Holds capacity ([] : Queue κ ν).reverse := empty
  obtain ⟨replies, holds⟩ := emptyQueue.run_queue commands
  refine ⟨replies, ?_, fun kept => ?_⟩
  · rw [holds.toList_eq, List.reverse_reverse]
  · have latest := empty.run_keepsLatest kept
    rw [List.map_reverse, latest, List.rtake_eq_reverse_take_reverse, ← List.length_reverse,
      ← List.take_eq_take_min]

-- A key that was taken out counts as the newest one when it comes back.
example : (Queue.answers 2 [] [.request (.insert 'a' 1), .request (.insert 'b' 2),
    .request (.erase 'a'), .request (.insert 'a' 3)]).2 = [('b', 2), ('a', 3)] := by decide

/-- Three keys arrive where there is room for two. The first one leaves although it was
read and written again. -/
theorem fifo_keeps_last_two :
    let commands : List (Command Nat Char) :=
      [.request (.insert 1 'a'), .request (.insert 2 'b'), .request (.get 1),
        .request (.insert 1 'c'), .request (.insert 3 'd')]
    let fresh : FifoStore Nat Char := ofCapacity 2
    let arrivals := (fresh.history Command.arrival? commands).reduceOption
    (∀ command ∈ commands, command.keepsEntries = true) ∧
      (fresh.run commands).2.toList.reverse = [(2, 'b'), (3, 'd')] ∧
      arrivals.rtake (min 2 arrivals.length) = [2, 3] := by
  intro commands fresh arrivals
  have kept : ∀ command ∈ commands, command.keepsEntries = true := by decide
  obtain ⟨-, entries, window⟩ := fifo_run_eq_answers 2 commands
  have final : (fresh.run commands).2.toList.reverse = [(2, 'b'), (3, 'd')] :=
    entries.trans (by decide)
  refine ⟨kept, final, ?_⟩
  rw [← window kept, final]
  rfl

end BoundedStore

end GraphsAndCaches
