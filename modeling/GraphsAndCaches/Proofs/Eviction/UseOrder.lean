import GraphsAndCaches.Proofs.Eviction.BoundedStore

/-!
# The order of use

A store from which the least recently used entry leaves is a stack that is searched by
key. `Stack` says what this means without a word about policies: entries in the order of
their last uses, the one used last on top, where a known key that is used comes back to
the top. The store answers every command as the stack does and holds its entries.

The lineup of the store arrives at the same entries in two moves where the stack makes
one. It uses a known key first and writes the value over the old one then.
-/

namespace GraphsAndCaches

/-- Entries in the order of their last uses, the one used last on top. -/
abbrev Stack (κ ν : Type) := List (κ × ν)

namespace Stack

variable {κ ν : Type} [DecidableEq κ]

/-- A key is used. A resident key comes to the top with its value, any other changes
nothing. -/
def used (stack : Stack κ ν) (key : κ) : Stack κ ν :=
  match stack.lookup key with
  | some value => (key, value) :: stack.filter (·.1 ≠ key)
  | none => stack

/-- A value written under a key. A resident key comes to the top with the new value. Any
other key is put on top, and the pair at the bottom leaves when there is no room, unless
the capacity is zero. -/
def inserted (capacity : Nat) (stack : Stack κ ν) (key : κ) (value : ν) : Stack κ ν :=
  if (stack.lookup key).isSome then (key, value) :: stack.filter (·.1 ≠ key)
  else if capacity = 0 then stack
  else (key, value) :: if stack.length = capacity then stack.dropLast else stack

/-- The reply to a command, and the entries then. A value is read as a use of its key or
without a trace. -/
def answer (capacity : Nat) (stack : Stack κ ν) :
    BoundedStore.Command κ ν → Reply κ ν × Stack κ ν
  | .request (.insert key value) =>
      (.value (stack.lookup key), stack.inserted capacity key value)
  | .request (.get key) => (.value (stack.lookup key), stack.used key)
  | .request (.peek key) => (.value (stack.lookup key), stack)
  | .request (.find key) => (.flag (stack.lookup key).isSome, stack)
  | .request (.erase key) => (.value (stack.lookup key), stack.filter (·.1 ≠ key))
  | .request .clear => (.done, [])
  | .request .nextErasure =>
      (.entry (if stack.length = capacity then stack.getLast? else none), stack)
  | .request .size => (.count stack.length, stack)
  | .request .capacity => (.count capacity, stack)
  | .request .isEmpty => (.flag stack.isEmpty, stack)
  | .request .isFull => (.flag (stack.length == capacity), stack)
  | .read key => (.value (stack.lookup key), stack)
  | .touch key => (.flag (stack.lookup key).isSome, stack.used key)
  | .rank key => (.rank (stack.findIdx? (·.1 == key)), stack)
  | .oldest => (.entry stack.getLast?, stack)
  | .popOldest => (.entry stack.getLast?, stack.dropLast)
  | .entries => (.entries stack, stack)
  | .check => (.verdict none, stack)

/-- The replies to commands one after another, and the entries in the end. -/
def answers (capacity : Nat) (stack : Stack κ ν) :
    List (BoundedStore.Command κ ν) → List (Reply κ ν) × Stack κ ν
  | [] => ([], stack)
  | command :: rest =>
      let (reply, stack) := stack.answer capacity command
      let (replies, stack) := answers capacity stack rest
      (reply :: replies, stack)

/-! ## A stack is the lineup of a store that promotes what is used -/

theorem used_eq (stack : Stack κ ν) (key : κ) : Lineup.used .lru stack key = stack.used key :=
  rfl

/-- The value that a use has brought to the top is written over. Below it no entry has
the key. -/
theorem written_used {stack : Stack κ ν} {key : κ}
    (present : (stack.lookup key).isSome = true) (value : ν) :
    Lineup.written (stack.used key) key value = (key, value) :: stack.filter (·.1 ≠ key) := by
  obtain ⟨old, found⟩ := Option.isSome_iff_exists.mp present
  have absent : Lineup.Lacks (stack.filter (·.1 ≠ key)) key :=
    fun _ member => (Lineup.mem_without.mp member).2
  have top : Lineup.Lacks ([] : Stack κ ν) key := List.forall_mem_nil _
  rw [used, found]
  exact Lineup.written_split top absent value

theorem inserted_eq (capacity : Nat) (stack : Stack κ ν) (key : κ) (value : ν) :
    Lineup.inserted .lru capacity stack key value = stack.inserted capacity key value := by
  rw [Lineup.inserted, inserted]
  by_cases present : (stack.lookup key).isSome = true
  · rw [if_pos present, if_pos present, used_eq, written_used present]
  · rw [if_neg present, if_neg present]
    rfl

/-- Only an insertion is told in another way. -/
theorem answer_eq (capacity : Nat) (stack : Stack κ ν) (command : BoundedStore.Command κ ν) :
    Lineup.answer .lru capacity stack command = stack.answer capacity command := by
  cases command with
  | request request =>
      cases request with
      | insert key value => rw [Lineup.answer, inserted_eq, answer]
      | _ => rfl
  | _ => rfl

theorem answers_eq (capacity : Nat) (stack : Stack κ ν)
    (commands : List (BoundedStore.Command κ ν)) :
    Lineup.answers .lru capacity stack commands = stack.answers capacity commands := by
  induction commands generalizing stack with
  | nil => rfl
  | cons command rest inductionHypothesis =>
      simp only [Lineup.answers, answers, answer_eq, inductionHypothesis]

end Stack

namespace BoundedStore

variable {κ ν : Type} [DecidableEq κ] [Hashable κ]

/-- A store from which the least recently used entry leaves is a stack with an index. From
its empty state on it replies to every list of commands as the stack does, and it has the
entries of the stack in their order at the end, whichever capacity it has. As the list is
arbitrary, this is so after every command. -/
theorem lru_run_eq_answers (capacity : Nat) (commands : List (Command κ ν)) :
    ((ofCapacity capacity : LruStore κ ν).run commands).1 =
        (Stack.answers capacity [] commands).1 ∧
      ((ofCapacity capacity : LruStore κ ν).run commands).2.toList =
        (Stack.answers capacity [] commands).2 := by
  have fresh : Holds (ofCapacity capacity : LruStore κ ν) capacity [] :=
    holds_ofCapacity capacity
  obtain ⟨replies, holds⟩ := fresh.run commands
  rw [Stack.answers_eq] at replies holds
  exact ⟨replies, holds.toList_eq⟩

-- The key that was read stays although it came first.
example : (Stack.answers 2 [] [.request (.insert 'a' 1), .request (.insert 'b' 2),
    .request (.get 'a'), .request (.insert 'c' 3)]).2 = [('c', 3), ('a', 1)] := by decide

end BoundedStore

end GraphsAndCaches
