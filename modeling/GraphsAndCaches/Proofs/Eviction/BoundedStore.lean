import GraphsAndCaches.Proofs.Eviction.Roster

/-!
# Bounded stores follow lineups

A bounded store holds a lineup that fits into its capacity. Each command gets the reply
that the lineup gives, and leaves the lineup that the command makes of it. The counters
take no part in this.

The bound matters to the argument as well as to the result: the store makes room when it
holds at least as many entries as it may, the lineup when it holds exactly as many.
-/

namespace GraphsAndCaches.BoundedStore

variable {policy : Policy} {κ ν : Type} [DecidableEq κ] [Hashable κ]
variable {store : BoundedStore policy κ ν} {capacity : Nat} {entries : Lineup κ ν}

/-- The store has this capacity, and its roster holds these entries within it. -/
structure Holds (store : BoundedStore policy κ ν) (capacity : Nat) (entries : Lineup κ ν) :
    Prop where
  capacity_eq : store.capacity = capacity
  roster : store.roster.Holds entries
  fits : entries.length ≤ capacity

theorem holds_ofCapacity (capacity : Nat) :
    Holds (ofCapacity capacity : BoundedStore policy κ ν) capacity [] :=
  ⟨rfl, Roster.holds_empty, Nat.zero_le capacity⟩

namespace Holds

variable (holds : Holds store capacity entries)
include holds

/-- Counting is not seen in the entries. -/
theorem count (event : Counters.Event) : Holds (store.count event) capacity entries :=
  ⟨holds.capacity_eq, holds.roster, holds.fits⟩

/-! ## What can be read -/

theorem toList_eq : store.toList = entries := holds.roster.toList_eq

theorem size_eq : store.size = entries.length := holds.roster.size_eq

theorem isEmpty_eq : store.isEmpty = entries.isEmpty := by
  rw [isEmpty, holds.size_eq]
  cases entries <;> rfl

theorem isFull_eq : store.isFull = (entries.length == capacity) := by
  rw [isFull, holds.size_eq, holds.capacity_eq]

theorem contains_eq (key : κ) : store.contains key = (entries.lookup key).isSome :=
  holds.roster.contains_eq key

theorem read_eq (key : κ) : store.read key = entries.lookup key := holds.roster.get?_eq key

theorem oldest?_eq : store.oldest? = entries.getLast? := holds.roster.back?_eq

theorem nextErasure_eq : store.nextErasure = entries.victim capacity := by
  rw [nextErasure, holds.isFull_eq, holds.oldest?_eq, Lineup.victim]
  simp only [beq_iff_eq]

/-- A store that has at least as many entries as it may is full. -/
theorem capacity_le_size_iff : store.capacity ≤ store.size ↔ entries.length = capacity := by
  rw [holds.size_eq, holds.capacity_eq]
  exact ⟨fun enough => Nat.le_antisymm holds.fits enough, fun same => Nat.le_of_eq same.symm⟩

theorem check_eq : store.check = .ok () :=
  holds.roster.check_eq (holds.capacity_eq.symm ▸ holds.fits)

/-! ## What changes the store -/

theorem touch (key : κ) :
    (store.touch key).1 = (entries.lookup key).isSome ∧
      Holds (store.touch key).2 capacity (entries.used policy key) := by
  have fits := Nat.le_trans (Lineup.length_used_le policy entries key) holds.fits
  rw [BoundedStore.touch]
  by_cases promotes : policy.promotesOnUse
  · obtain ⟨found, roster⟩ := holds.roster.promote key
    rw [if_pos promotes]
    refine ⟨found, holds.capacity_eq, ?_, fits⟩
    rw [Lineup.used, if_pos promotes]
    exact roster
  · rw [if_neg promotes, Lineup.used, if_neg promotes]
    exact ⟨holds.contains_eq key, holds⟩

theorem get (key : κ) :
    (store.get key).1 = entries.lookup key ∧
      Holds (store.get key).2 capacity (entries.used policy key) := by
  rw [BoundedStore.get, holds.contains_eq key]
  cases found : entries.lookup key with
  | none =>
      rw [Lineup.used_of_lookup_eq_none policy found]
      exact ⟨rfl, holds.count .getMiss⟩
  | some value =>
      have touched := ((holds.count .getHit).touch key).2
      have read := touched.read_eq key
      rw [Lineup.lookup_used, found] at read
      exact ⟨read, touched⟩

theorem popOldest :
    store.popOldest.1 = entries.getLast? ∧
      Holds store.popOldest.2 capacity entries.dropLast := by
  obtain ⟨popped, roster⟩ := holds.roster.popBack
  refine ⟨popped, holds.capacity_eq, roster, ?_⟩
  exact Nat.le_trans (List.dropLast_sublist entries).length_le holds.fits

/-- Room is made exactly in a full store, by its last entry. -/
theorem makeRoom : Holds store.makeRoom capacity (entries.makeRoom capacity) := by
  rw [BoundedStore.makeRoom, Lineup.makeRoom]
  by_cases full : entries.length = capacity
  · rw [if_pos (holds.capacity_le_size_iff.mpr full), if_pos full]
    have popped := holds.popOldest.2
    generalize store.popOldest = outcome at popped
    obtain ⟨entry, rest⟩ := outcome
    cases entry with
    | none => exact popped
    | some entry => exact popped.count .eviction
  · rw [if_neg (mt holds.capacity_le_size_iff.mp full), if_neg full]
    exact holds

theorem update (key : κ) (value : ν) :
    (store.update key value).1 = entries.lookup key ∧
      Holds (store.update key value).2 capacity ((entries.used policy key).written key value) := by
  have touched := ((holds.count .insertUpdate).touch key).2
  obtain ⟨old, roster⟩ := touched.roster.replace key value
  rw [Lineup.lookup_used] at old
  refine ⟨old, touched.capacity_eq, roster, ?_⟩
  rw [Lineup.length_written]
  exact touched.fits

/-- A new entry comes first, in front of those for which there is room. -/
theorem addNew {key : κ} (absent : entries.lookup key = none) (positive : 0 < capacity)
    (value : ν) :
    Holds (store.addNew key value) capacity ((key, value) :: entries.makeRoom capacity) := by
  have room := holds.makeRoom.count .insertNew
  have stillAbsent : (entries.makeRoom capacity).lookup key = none := by
    rw [Lineup.lookup_eq_none_iff] at absent ⊢
    have stays := (Lineup.makeRoom_sublist capacity entries).subset
    exact fun entry member => absent entry (stays member)
  exact ⟨room.capacity_eq, room.roster.pushFront stillAbsent value,
    Lineup.length_makeRoom_lt positive holds.fits⟩

theorem insert (key : κ) (value : ν) :
    (store.insert key value).1 = entries.lookup key ∧
      Holds (store.insert key value).2 capacity (entries.inserted policy capacity key value) := by
  rw [BoundedStore.insert, holds.contains_eq key, holds.capacity_eq, Lineup.inserted]
  cases found : entries.lookup key with
  | some old =>
      have updated := holds.update key value
      rw [found] at updated
      exact updated
  | none =>
      rw [Option.isSome_none, if_neg Bool.false_ne_true, if_neg Bool.false_ne_true]
      by_cases zero : capacity = 0
      · rw [if_pos zero, if_pos zero]
        exact ⟨rfl, holds⟩
      · rw [if_neg zero, if_neg zero]
        exact ⟨rfl, holds.addNew found (Nat.pos_of_ne_zero zero) value⟩

theorem erase (key : κ) :
    (store.erase key).1 = entries.lookup key ∧
      Holds (store.erase key).2 capacity (entries.without key) := by
  obtain ⟨removed, roster⟩ := holds.roster.remove key
  refine ⟨removed, holds.capacity_eq, roster, ?_⟩
  exact Nat.le_trans (List.length_filter_le _ _) holds.fits

theorem clear : Holds store.clear capacity [] :=
  ⟨holds.capacity_eq, Roster.holds_empty, Nat.zero_le capacity⟩

/-! ## Commands -/

/-- A request is answered as the lineup answers it. -/
theorem perform_request (request : Request κ ν) :
    (store.perform (.request request)).1 =
        (entries.answer policy capacity (.request request)).1 ∧
      Holds (store.perform (.request request)).2 capacity
        (entries.answer policy capacity (.request request)).2 := by
  cases request with
  | insert key value =>
      obtain ⟨old, inserted⟩ := holds.insert key value
      exact ⟨congrArg Reply.value old, inserted⟩
  | get key =>
      obtain ⟨value, used⟩ := holds.get key
      exact ⟨congrArg Reply.value value, used⟩
  | peek key => exact ⟨congrArg Reply.value (holds.read_eq key), holds.count .peek⟩
  | find key => exact ⟨congrArg Reply.flag (holds.contains_eq key), holds.count .find⟩
  | erase key =>
      obtain ⟨value, erased⟩ := holds.erase key
      exact ⟨congrArg Reply.value value, erased⟩
  | clear => exact ⟨rfl, holds.clear⟩
  | nextErasure => exact ⟨congrArg Reply.entry holds.nextErasure_eq, holds⟩
  | size => exact ⟨congrArg Reply.count holds.size_eq, holds⟩
  | capacity => exact ⟨congrArg Reply.count holds.capacity_eq, holds⟩
  | isEmpty => exact ⟨congrArg Reply.flag holds.isEmpty_eq, holds⟩
  | isFull => exact ⟨congrArg Reply.flag holds.isFull_eq, holds⟩

/-- A command is answered as the lineup answers it. -/
theorem perform (command : Command κ ν) :
    (store.perform command).1 = (entries.answer policy capacity command).1 ∧
      Holds (store.perform command).2 capacity (entries.answer policy capacity command).2 := by
  cases command with
  | request request => exact holds.perform_request request
  | read key => exact ⟨congrArg Reply.value (holds.read_eq key), holds⟩
  | touch key =>
      obtain ⟨found, used⟩ := holds.touch key
      exact ⟨congrArg Reply.flag found, used⟩
  | rank key => exact ⟨congrArg Reply.rank (holds.roster.rank?_eq key), holds⟩
  | oldest => exact ⟨congrArg Reply.entry holds.oldest?_eq, holds⟩
  | popOldest =>
      obtain ⟨entry, popped⟩ := holds.popOldest
      exact ⟨congrArg Reply.entry entry, popped⟩
  | entries => exact ⟨congrArg Reply.entries holds.toList_eq, holds⟩
  | check =>
      rw [BoundedStore.perform, holds.check_eq]
      exact ⟨rfl, holds⟩

omit holds in
/-- A run of commands is answered as the lineup answers it, command by command. -/
theorem run (holds : Holds store capacity entries) (commands : List (Command κ ν)) :
    (store.run commands).1 = (entries.answers policy capacity commands).1 ∧
      Holds (store.run commands).2 capacity (entries.answers policy capacity commands).2 := by
  induction commands generalizing store entries with
  | nil => exact ⟨rfl, holds⟩
  | cons command rest inductionHypothesis =>
      obtain ⟨reply, next⟩ := holds.perform command
      obtain ⟨replies, final⟩ := inductionHypothesis next
      refine ⟨?_, final⟩
      change (store.perform command).1 :: _ = (entries.answer policy capacity command).1 :: _
      rw [reply]
      exact congrArg (List.cons _) replies

end Holds

end GraphsAndCaches.BoundedStore
