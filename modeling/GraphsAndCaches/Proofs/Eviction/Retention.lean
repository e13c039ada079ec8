import GraphsAndCaches.Proofs.Eviction.History
import GraphsAndCaches.Proofs.Eviction.Recency
import Mathlib.Data.Finset.Card
import Mathlib.Data.List.Dedup
import Mathlib.Data.List.ReduceOption

/-!
# What is retained

Which keys a store has, from which the least recently used entry leaves, can be told from
the history of their uses alone: a key is resident when it was used and fewer other keys
than the capacity were used since, and the number of these keys is its rank.

The history does not hang on the store only through its commands. Whether a `get` is a use
depends on what is resident, and this on earlier uses. Both are settled together: all keys
that were ever used are put in the order of their last use, `recency`, and one command
keeps the keys of the store equal to the first keys of this order.
-/

namespace GraphsAndCaches

variable {κ ν : Type} {uses : List (Option κ)} {key other : κ} {time : Nat}

/-- The last use of `key` in a history was at `time`. -/
structure LastUse (uses : List (Option κ)) (key : κ) (time : Nat) : Prop where
  used : uses[time]? = some (some key)
  unused_since : ∀ later, time < later → uses[later]? ≠ some (some key)

namespace LastUse

/-- The history is cut at the last use. -/
theorem split (last : LastUse uses key time) :
    uses = uses.take time ++ some key :: uses.drop (time + 1) := by
  obtain ⟨within, used⟩ := List.getElem?_eq_some_iff.mp last.used
  rw [← used, List.getElem_cons_drop, List.take_append_drop]

theorem not_mem_drop (last : LastUse uses key time) : some key ∉ uses.drop (time + 1) := by
  intro member
  obtain ⟨place, found⟩ := List.mem_iff_getElem?.mp member
  rw [List.getElem?_drop] at found
  exact last.unused_since (time + 1 + place) (by omega) found

/-- The use that ends a history is the last one of its key. -/
theorem concat_self (uses : List (Option κ)) (key : κ) :
    LastUse (uses ++ [some key]) key uses.length where
  used := List.getElem?_concat_length
  unused_since later after := by
    rw [List.getElem?_eq_none (by simp; omega)]
    exact (Option.some_ne_none _).symm

/-- A last use stays the last one when something else happens. -/
theorem concat (last : LastUse uses key time) {use : Option κ} (different : use ≠ some key) :
    LastUse (uses ++ [use]) key time where
  used := by
    obtain ⟨within, -⟩ := List.getElem?_eq_some_iff.mp last.used
    rw [List.getElem?_append_left within, last.used]
  unused_since later after found := by
    rcases Nat.lt_or_ge later uses.length with within | beyond
    · rw [List.getElem?_append_left within] at found
      exact last.unused_since later after found
    · rw [List.getElem?_append_right beyond] at found
      exact different (List.mem_singleton.mp (List.mem_of_getElem? found)).symm

theorem lt_length (last : LastUse uses key time) : time < uses.length :=
  (List.getElem?_eq_some_iff.mp last.used).1

end LastUse

/-- A key that was used was used for a last time. -/
theorem exists_lastUse (used : some key ∈ uses) : ∃ time, LastUse uses key time := by
  induction uses using List.reverseRecOn with
  | nil => cases used
  | append_singleton uses use inductionHypothesis =>
      by_cases same : use = some key
      · exact ⟨uses.length, same ▸ LastUse.concat_self uses key⟩
      · have before : some key ∈ uses := by
          rcases List.mem_append.mp used with member | member
          · exact member
          · exact absurd (List.mem_singleton.mp member).symm same
        obtain ⟨time, last⟩ := inductionHypothesis before
        exact ⟨time, last.concat same⟩

variable [DecidableEq κ]

/-- The other keys that were used after `time`. -/
def othersSince (uses : List (Option κ)) (key : κ) (time : Nat) : Finset κ :=
  {other ∈ (uses.drop (time + 1)).reduceOption.toFinset | other ≠ key}

/-! ## The order of last uses -/

/-- The keys that were used, in the order of their last uses, the last one first. -/
def recency (uses : List (Option κ)) : List κ := uses.reduceOption.dedup.reverse

theorem nodup_recency (uses : List (Option κ)) : (recency uses).Nodup :=
  List.nodup_reverse.mpr (List.nodup_dedup _)

theorem mem_recency_iff : key ∈ recency uses ↔ some key ∈ uses := by
  rw [recency, List.mem_reverse, List.mem_dedup, List.reduceOption_mem_iff]

theorem recency_concat_none (uses : List (Option κ)) : recency (uses ++ [none]) = recency uses := by
  rw [recency, List.reduceOption_append, List.reduceOption_singleton, Option.toList_none,
    List.append_nil]
  rfl

/-- The last of some keys has no equal among those that are listed before it. -/
theorem dedup_concat (keys : List κ) (key : κ) :
    (keys ++ [key]).dedup = keys.dedup.filter (· ≠ key) ++ [key] := by
  induction keys with
  | nil => rfl
  | cons first rest inductionHypothesis =>
      rw [List.cons_append]
      by_cases again : first ∈ rest
      · rw [List.dedup_cons_of_mem again, List.dedup_cons_of_mem (List.mem_append_left _ again),
          inductionHypothesis]
      · rw [List.dedup_cons_of_notMem again]
        by_cases same : first = key
        · rw [List.dedup_cons_of_mem (by simp [same]), inductionHypothesis,
            List.filter_cons_of_neg (by simp [same])]
        · rw [List.dedup_cons_of_notMem (by simp [same, again]), inductionHypothesis,
            List.filter_cons_of_pos (by simp [same]), List.cons_append]

/-- A use brings its key to the front. -/
theorem recency_concat_some (uses : List (Option κ)) (key : κ) :
    recency (uses ++ [some key]) = toFront key (recency uses) := by
  rw [recency, List.reduceOption_append, List.reduceOption_singleton, Option.toList_some,
    dedup_concat, List.reverse_append, ← List.filter_reverse]
  rfl

/-- As many keys precede one in this order as others were used since its last use. -/
theorem LastUse.idxOf_recency (last : LastUse uses key time) :
    (recency uses).idxOf key = (othersSince uses key time).card := by
  have unused : key ∉ (uses.drop (time + 1)).reduceOption :=
    fun member => last.not_mem_drop (List.reduceOption_mem_iff.mp member)
  have listed : uses.reduceOption.dedup = (uses.take time).reduceOption ∪
      key :: (uses.drop (time + 1)).reduceOption.dedup := by
    conv_lhs => rw [last.split, List.reduceOption_append, List.reduceOption_cons_of_some,
      List.dedup_append, List.dedup_cons_of_notMem unused]
  obtain ⟨earlier, cut⟩ := List.suffix_union_right (uses.take time).reduceOption
    (key :: (uses.drop (time + 1)).reduceOption.dedup)
  have order : recency uses = recency (uses.drop (time + 1)) ++ key :: earlier.reverse := by
    rw [recency, listed, ← cut, List.reverse_append, List.reverse_cons, List.append_assoc]
    rfl
  have allOthers : othersSince uses key time = (uses.drop (time + 1)).reduceOption.toFinset :=
    Finset.filter_true_of_mem fun other member same =>
      unused (same ▸ List.mem_toFinset.mp member)
  rw [order, List.idxOf_append_of_notMem (mt mem_recency_iff.mp last.not_mem_drop),
    List.idxOf_cons_self, Nat.add_zero, allOthers, List.card_toFinset, recency,
    List.length_reverse]

/-- The keys are in the order of their last uses.

Induct on the history from its end. A use adds its own moment, which is later than all
others, and every other last use stays what it was. -/
theorem pairwise_recency (uses : List (Option κ)) :
    (recency uses).Pairwise fun newer older =>
      ∃ later earlier, LastUse uses newer later ∧ LastUse uses older earlier ∧
        earlier < later := by
  induction uses using List.reverseRecOn with
  | nil => exact .nil
  | append_singleton uses use inductionHypothesis =>
      cases use with
      | none =>
          rw [recency_concat_none]
          refine inductionHypothesis.imp ?_
          rintro newer older ⟨later, earlier, lastNewer, lastOlder, before⟩
          exact ⟨later, earlier, lastNewer.concat nofun, lastOlder.concat nofun, before⟩
      | some key =>
          have others : ∀ {other}, other ∈ (recency uses).filter (· ≠ key) →
              other ∈ recency uses ∧ some key ≠ some other := by
            intro other member
            obtain ⟨inOrder, different⟩ := List.mem_filter.mp member
            exact ⟨inOrder, fun same => of_decide_eq_true different (Option.some.inj same).symm⟩
          rw [recency_concat_some]
          refine List.pairwise_cons.mpr ⟨?_, (inductionHypothesis.filter _).imp_of_mem ?_⟩
          · intro older member
            obtain ⟨inOrder, different⟩ := others member
            obtain ⟨earlier, last⟩ := exists_lastUse (mem_recency_iff.mp inOrder)
            exact ⟨uses.length, earlier, .concat_self uses key, last.concat different,
              last.lt_length⟩
          · rintro newer older memberNewer memberOlder
              ⟨later, earlier, lastNewer, lastOlder, before⟩
            exact ⟨later, earlier, lastNewer.concat (others memberNewer).2,
              lastOlder.concat (others memberOlder).2, before⟩

/-- The first keys of this order are those since whose last use few others were used. -/
theorem mem_take_recency_iff {capacity : Nat} :
    key ∈ (recency uses).take capacity ↔
      ∃ time, LastUse uses key time ∧ (othersSince uses key time).card < capacity := by
  constructor
  · intro member
    have listed := List.mem_of_mem_take member
    obtain ⟨time, last⟩ := exists_lastUse (mem_recency_iff.mp listed)
    refine ⟨time, last, ?_⟩
    rw [← last.idxOf_recency]
    exact (List.mem_take_iff_idxOf_lt listed).mp member
  · rintro ⟨time, last, few⟩
    have listed := mem_recency_iff.mpr (List.mem_of_getElem? last.used)
    rw [← last.idxOf_recency] at few
    exact (List.mem_take_iff_idxOf_lt listed).mpr few

/-! ## What one command and what a run keeps -/

namespace Lineup

variable {capacity : Nat} {entries : Lineup κ ν}

/-- The keys are the first ones in the order of last uses. -/
def KeepsRecent (capacity : Nat) (uses : List (Option κ)) (entries : Lineup κ ν) : Prop :=
  entries.map Prod.fst = (recency uses).take capacity

theorem keepsRecent_nil : KeepsRecent capacity [] ([] : Lineup κ ν) :=
  List.take_nil.symm

namespace KeepsRecent

/-- Where nothing is used nothing changes. -/
theorem unused (recent : KeepsRecent capacity uses entries) :
    KeepsRecent capacity (uses ++ [none]) entries := by
  rw [KeepsRecent, recency_concat_none]
  exact recent

/-- A use of a key brings it to the front of both orders. -/
theorem used {after : Lineup κ ν} (recent : KeepsRecent capacity uses entries)
    (forward : after.map Prod.fst = (toFront key (entries.map Prod.fst)).take capacity) :
    KeepsRecent capacity (uses ++ [some key]) after := by
  rw [KeepsRecent, forward, recent, take_toFront_take (nodup_recency uses), recency_concat_some]

/-- A hit is a use, and a miss changes nothing. -/
theorem lookedUp (recent : KeepsRecent capacity uses entries) (fits : entries.length ≤ capacity)
    (key : κ) :
    KeepsRecent capacity (uses ++ [if (entries.lookup key).isSome then some key else none])
      (entries.used .lru key) := by
  by_cases hit : (entries.lookup key).isSome = true
  · rw [if_pos hit]
    exact recent.used (map_fst_used_lru hit fits)
  · rw [if_neg hit, used_of_lookup_eq_none .lru (Option.not_isSome_iff_eq_none.mp hit)]
    exact recent.unused

theorem answer {command : BoundedStore.Command κ ν} (recent : KeepsRecent capacity uses entries)
    (fits : entries.length ≤ capacity) (kept : command.keepsEntries = true) :
    KeepsRecent capacity (uses ++ [command.use? fun key => (entries.lookup key).isSome])
      (entries.answer .lru capacity command).2 := by
  cases command with
  | request request =>
      cases request with
      | insert key value => exact recent.used (map_fst_inserted_lru fits key value)
      | get key => exact recent.lookedUp fits key
      | erase key => cases kept
      | clear => cases kept
      | _ => exact recent.unused
  | touch key => exact recent.lookedUp fits key
  | popOldest => cases kept
  | _ => exact recent.unused

end KeepsRecent

end Lineup

namespace BoundedStore

variable [Hashable κ]

/-- In a store from which the least recently used entry leaves, and from which nothing is
taken away, a key is resident exactly when it was used and fewer other keys than the
capacity were used since its last use. Its rank is the number of these keys, and the
resident keys are listed in the order of their last uses, the last one first. -/
theorem lru_retention (capacity : Nat) (commands : List (Command κ ν))
    (kept : ∀ command ∈ commands, command.keepsEntries = true) :
    let fresh : LruStore κ ν := ofCapacity capacity
    let store := (fresh.run commands).2
    let uses := fresh.history Command.use? commands
    (∀ key, store.contains key = true ↔
        ∃ time, LastUse uses key time ∧ (othersSince uses key time).card < capacity) ∧
      (∀ key time, store.contains key = true → LastUse uses key time →
        store.rank? key = some (othersSince uses key time).card) ∧
      (∀ key, key ∈ store.toList.map Prod.fst ↔ store.contains key = true) ∧
      (store.toList.map Prod.fst).Pairwise fun newer older =>
        ∃ later earlier, LastUse uses newer later ∧ LastUse uses older earlier ∧
          earlier < later := by
  intro fresh store uses
  have empty : fresh.Holds capacity [] := holds_ofCapacity capacity
  obtain ⟨entries, holds, recent⟩ :=
    Holds.run_history (fun _ fits admitted recent => recent.answer fits admitted) kept empty
      Lineup.keepsRecent_nil
  rw [List.nil_append, Lineup.KeepsRecent] at recent
  change store.Holds capacity entries at holds
  have resident : ∀ key, key ∈ entries.map Prod.fst ↔ store.contains key = true := by
    intro key
    rw [Lineup.mem_map_fst_iff, holds.contains_eq]
  refine ⟨?_, ?_, ?_, ?_⟩
  · intro key
    rw [← resident, recent]
    exact mem_take_recency_iff
  · intro key time present last
    rw [← resident] at present
    have place : (entries.map Prod.fst).idxOf key = (othersSince uses key time).card := by
      rw [← last.idxOf_recency]
      exact (recent ▸ List.take_prefix capacity _ : entries.map Prod.fst <+: _).idxOf_eq_of_mem
        present
    have within : (entries.map Prod.fst).idxOf key < (entries.map Prod.fst).length :=
      List.idxOf_lt_length_iff.mpr present
    have found : (entries.map Prod.fst).findIdx? (· == key) =
        some ((entries.map Prod.fst).idxOf key) :=
      List.findIdx?_eq_some_iff_findIdx_eq.mpr ⟨within, rfl⟩
    rw [rank?, holds.roster.rank?_eq, ← place, ← found, List.findIdx?_map]
    rfl
  · rw [holds.toList_eq]
    exact resident
  · rw [holds.toList_eq, recent]
    exact (pairwise_recency uses).sublist (List.take_sublist capacity _)

/-- The key that was read again outlives one that arrived after it and that was only looked
at since. -/
theorem lru_retains_reread_key :
    let commands : List (Command Nat Char) :=
      [.request (.insert 1 'a'), .request (.insert 2 'b'), .request (.get 1),
        .request (.peek 2), .request (.insert 3 'c')]
    let fresh : LruStore Nat Char := ofCapacity 2
    let store := (fresh.run commands).2
    let uses := fresh.history Command.use? commands
    (∀ command ∈ commands, command.keepsEntries = true) ∧
      store.toList.map Prod.fst = [3, 1] ∧
      (∃ time, LastUse uses 1 time ∧ (othersSince uses 1 time).card < 2) ∧
      ¬ ∃ time, LastUse uses 2 time ∧ (othersSince uses 2 time).card < 2 := by
  intro commands fresh store uses
  have kept : ∀ command ∈ commands, command.keepsEntries = true := by decide
  have keys : store.toList.map Prod.fst = [3, 1] :=
    congrArg (List.map Prod.fst) ((holds_ofCapacity 2).run commands).2.toList_eq
  obtain ⟨used, -, resident, -⟩ := lru_retention 2 commands kept
  refine ⟨kept, keys, ?_, ?_⟩
  · rw [← used, ← resident, keys]
    decide
  · rw [← used, ← resident, keys]
    decide

end BoundedStore

end GraphsAndCaches
