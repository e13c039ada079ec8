import GraphsAndCaches.Eviction.BoundedStore
import Mathlib.Data.List.Basic

/-!
# Lineups

A lineup is the list of the entries of a store, the newest one first, and nothing else.
Each operation of a bounded store has its counterpart here, written with the usual list
functions: what is looked up, taken out, moved to the front or dropped at the end is
found by searching the list.

`Lineup.answer` says what a store of a given policy and capacity has to reply to each
command and which lineup it has to hold then. The stores of all policies are compared with
it, and it is compared with a stack or a queue, which know of no policy.
-/

namespace GraphsAndCaches

/-- Entries in order, the newest one first. -/
abbrev Lineup (κ ν : Type) := List (κ × ν)

namespace Lineup

variable {κ ν : Type}

/-- No entry has this key. -/
def Lacks (entries : Lineup κ ν) (key : κ) : Prop := ∀ entry ∈ entries, entry.1 ≠ key

theorem lacks_append_iff {above below : Lineup κ ν} {key : κ} :
    Lacks (above ++ below) key ↔ Lacks above key ∧ Lacks below key :=
  List.forall_mem_append

/-- With distinct keys, no entry has the key of one that stands below it. -/
theorem lacks_above {above below : Lineup κ ν} {entry : κ × ν}
    (distinct : ((above ++ entry :: below).map Prod.fst).Nodup) : above.Lacks entry.1 := by
  intro other member
  rw [List.map_append, List.nodup_append] at distinct
  exact distinct.2.2 other.1 (List.mem_map_of_mem member) entry.1 List.mem_cons_self

/-- Nor has any that stands above it. -/
theorem lacks_below {above below : Lineup κ ν} {entry : κ × ν}
    (distinct : ((above ++ entry :: below).map Prod.fst).Nodup) : below.Lacks entry.1 := by
  intro other member same
  rw [List.map_append, List.map_cons, List.nodup_append] at distinct
  exact (List.nodup_cons.mp distinct.2.1).1 (same ▸ List.mem_map_of_mem member)

/-- The entries that stay when a new key comes: all but the last of a full store. -/
def makeRoom (capacity : Nat) (entries : Lineup κ ν) : Lineup κ ν :=
  if entries.length = capacity then entries.dropLast else entries

/-- The entry that does not stay then. -/
def victim (capacity : Nat) (entries : Lineup κ ν) : Option (κ × ν) :=
  if entries.length = capacity then entries.getLast? else none

/-- Of a full lineup an entry does not stay, unless the capacity is zero. -/
theorem exists_victim {capacity : Nat} {entries : Lineup κ ν} (positive : 0 < capacity)
    (full : entries.length = capacity) : ∃ entry, entries.victim capacity = some entry := by
  have nonempty : entries ≠ [] := List.ne_nil_of_length_pos (full ▸ positive)
  exact ⟨entries.getLast nonempty, by rw [victim, if_pos full, List.getLast?_eq_some_getLast]⟩

/-- The entry that does not stay is the last one. -/
theorem getLast?_of_victim {capacity : Nat} {entries : Lineup κ ν} {entry : κ × ν}
    (leaves : entries.victim capacity = some entry) : entries.getLast? = some entry := by
  rw [victim] at leaves
  split at leaves
  · exact leaves
  · cases leaves

/-- There is such an entry exactly when a lineup is full and the capacity is not zero. -/
theorem isSome_victim_iff {capacity : Nat} {entries : Lineup κ ν} :
    (entries.victim capacity).isSome = true ↔ entries.length = capacity ∧ 0 < capacity := by
  constructor
  · intro leaves
    rw [victim] at leaves
    split at leaves
    · next full =>
        refine ⟨full, full ▸ List.length_pos_iff.mpr ?_⟩
        rintro rfl
        cases leaves
    · cases leaves
  · rintro ⟨full, positive⟩
    obtain ⟨entry, last⟩ := exists_victim positive full
    rw [last]
    rfl

/-- Where room was made there is room. -/
theorem length_makeRoom_lt {capacity : Nat} {entries : Lineup κ ν} (positive : 0 < capacity)
    (fits : entries.length ≤ capacity) : (entries.makeRoom capacity).length < capacity := by
  simp only [makeRoom]
  split
  · rw [List.length_dropLast]
    omega
  · omega

theorem length_dropLast_add (entries : Lineup κ ν) :
    entries.dropLast.length + entries.getLast?.isSome.toNat = entries.length := by
  cases entries with
  | nil => rfl
  | cons entry rest => simp

/-- Room is made by a single entry, the victim. -/
theorem length_makeRoom_add (capacity : Nat) (entries : Lineup κ ν) :
    (entries.makeRoom capacity).length + (entries.victim capacity).isSome.toNat =
      entries.length := by
  simp only [makeRoom, victim]
  split
  · exact length_dropLast_add entries
  · rfl

theorem makeRoom_sublist (capacity : Nat) (entries : Lineup κ ν) :
    List.Sublist (entries.makeRoom capacity) entries := by
  simp only [makeRoom]
  split
  · exact List.dropLast_sublist entries
  · exact List.Sublist.refl entries

variable [DecidableEq κ]

/-- The other entries, in their order. -/
def without (entries : Lineup κ ν) (key : κ) : Lineup κ ν := entries.filter (·.1 ≠ key)

/-- The entry of a key moved to the front, if there is one. -/
def promoted (entries : Lineup κ ν) (key : κ) : Lineup κ ν :=
  match entries.lookup key with
  | some value => (key, value) :: entries.without key
  | none => entries

/-- A value written over that of a key, whose entry keeps its place. -/
def written (entries : Lineup κ ν) (key : κ) (value : ν) : Lineup κ ν :=
  entries.map fun entry => if entry.1 = key then (key, value) else entry

/-- What a use of a key does under a policy. -/
def used (policy : Policy) (entries : Lineup κ ν) (key : κ) : Lineup κ ν :=
  if policy.promotesOnUse then entries.promoted key else entries

/-- A value written under a key. The key is used when it has an entry. Otherwise a new
entry comes first, for which room is made, unless the capacity is zero. -/
def inserted (policy : Policy) (capacity : Nat) (entries : Lineup κ ν) (key : κ) (value : ν) :
    Lineup κ ν :=
  if (entries.lookup key).isSome then (entries.used policy key).written key value
  else if capacity = 0 then entries
  else (key, value) :: entries.makeRoom capacity

/-- The reply of a store with these entries to a command, and its entries then. -/
def answer (policy : Policy) (capacity : Nat) (entries : Lineup κ ν) :
    BoundedStore.Command κ ν → Reply κ ν × Lineup κ ν
  | .request (.insert key value) =>
      (.value (entries.lookup key), entries.inserted policy capacity key value)
  | .request (.get key) => (.value (entries.lookup key), entries.used policy key)
  | .request (.peek key) => (.value (entries.lookup key), entries)
  | .request (.find key) => (.flag (entries.lookup key).isSome, entries)
  | .request (.erase key) => (.value (entries.lookup key), entries.without key)
  | .request .clear => (.done, [])
  | .request .nextErasure => (.entry (entries.victim capacity), entries)
  | .request .size => (.count entries.length, entries)
  | .request .capacity => (.count capacity, entries)
  | .request .isEmpty => (.flag entries.isEmpty, entries)
  | .request .isFull => (.flag (entries.length == capacity), entries)
  | .read key => (.value (entries.lookup key), entries)
  | .touch key => (.flag (entries.lookup key).isSome, entries.used policy key)
  | .rank key => (.rank (entries.findIdx? (·.1 == key)), entries)
  | .oldest => (.entry entries.getLast?, entries)
  | .popOldest => (.entry entries.getLast?, entries.dropLast)
  | .entries => (.entries entries, entries)
  | .check => (.verdict none, entries)

/-- The replies to commands one after another, and the entries in the end. -/
def answers (policy : Policy) (capacity : Nat) (entries : Lineup κ ν) :
    List (BoundedStore.Command κ ν) → List (Reply κ ν) × Lineup κ ν
  | [] => ([], entries)
  | command :: rest =>
      let (reply, entries) := entries.answer policy capacity command
      let (replies, entries) := answers policy capacity entries rest
      (reply :: replies, entries)

/-! ## Lineups cut at an entry -/

variable {entries above below : Lineup κ ν} {key : κ} {value : ν}

theorem lookup_eq_none_iff : entries.lookup key = none ↔ entries.Lacks key := by
  rw [List.lookup_eq_none_iff]
  apply forall₂_congr
  intro entry _
  rw [bne_iff_ne]
  exact ne_comm

theorem lookup_split (absent : above.Lacks key) :
    (above ++ (key, value) :: below).lookup key = some value := by
  rw [List.lookup_append, lookup_eq_none_iff.mpr absent]
  simp

theorem without_of_lacks (absent : entries.Lacks key) : entries.without key = entries := by
  apply List.filter_eq_self.mpr
  intro entry member
  simpa using absent entry member

theorem without_split (absentAbove : above.Lacks key) (absentBelow : below.Lacks key) :
    without (above ++ (key, value) :: below) key = above ++ below := by
  have first := without_of_lacks absentAbove
  have second := without_of_lacks absentBelow
  simp only [without] at first second ⊢
  rw [List.filter_append, List.filter_cons_of_neg (by simp), first, second]

theorem promoted_of_lacks (absent : entries.Lacks key) : entries.promoted key = entries := by
  rw [promoted, lookup_eq_none_iff.mpr absent]

theorem promoted_split (absentAbove : above.Lacks key) (absentBelow : below.Lacks key) :
    promoted (above ++ (key, value) :: below) key = (key, value) :: (above ++ below) := by
  rw [promoted, lookup_split absentAbove, without_split absentAbove absentBelow]

theorem written_of_lacks (absent : entries.Lacks key) (value : ν) :
    entries.written key value = entries := by
  simp only [written]
  conv_rhs => rw [← List.map_id entries]
  apply List.map_congr_left
  intro entry member
  rw [if_neg (absent entry member)]
  rfl

theorem written_split (absentAbove : above.Lacks key) (absentBelow : below.Lacks key)
    (newValue : ν) :
    written (above ++ (key, value) :: below) key newValue =
      above ++ (key, newValue) :: below := by
  have first := written_of_lacks absentAbove newValue
  have second := written_of_lacks absentBelow newValue
  simp only [written] at first second ⊢
  rw [List.map_append, List.map_cons, first, second, if_pos rfl]

/-- With distinct keys, looking up finds exactly the entries. -/
theorem lookup_eq_some_iff (distinct : (entries.map Prod.fst).Nodup) :
    entries.lookup key = some value ↔ (key, value) ∈ entries := by
  constructor
  · intro found
    obtain ⟨above, below, rfl, -⟩ := List.lookup_eq_some_iff.mp found
    simp
  · intro member
    obtain ⟨above, below, rfl⟩ := List.append_of_mem member
    exact lookup_split (lacks_above distinct)

/-- A key is that of an entry exactly when looking it up finds one. -/
theorem mem_map_fst_iff : key ∈ entries.map Prod.fst ↔ (entries.lookup key).isSome = true := by
  cases found : entries.lookup key with
  | none =>
      have lacks := lookup_eq_none_iff.mp found
      simpa using fun value member => lacks (key, value) member rfl
  | some value =>
      obtain ⟨above, below, rfl, -⟩ := List.lookup_eq_some_iff.mp found
      simp

/-! ## Laws of the operations -/

theorem used_of_lookup_eq_none (policy : Policy) (absent : entries.lookup key = none) :
    entries.used policy key = entries := by
  rw [used, promoted_of_lacks (lookup_eq_none_iff.mp absent), ite_self]

theorem length_without_lt (found : entries.lookup key = some value) :
    (entries.without key).length < entries.length := by
  obtain ⟨above, below, rfl, -⟩ := List.lookup_eq_some_iff.mp found
  refine List.length_filter_lt_length_iff_exists.mpr ⟨(key, value), by simp, by simp⟩

/-- With distinct keys, at most one entry is missing where a key was taken out. -/
theorem length_without_add (distinct : (entries.map Prod.fst).Nodup) (key : κ) :
    (entries.without key).length + (entries.lookup key).isSome.toNat = entries.length := by
  cases found : entries.lookup key with
  | none => rw [without_of_lacks (lookup_eq_none_iff.mp found)]; rfl
  | some value =>
      obtain ⟨above, below, rfl, -⟩ := List.lookup_eq_some_iff.mp found
      rw [without_split (lacks_above distinct) (lacks_below distinct), List.length_append,
        List.length_append]
      rfl

/-- A use of a key takes nothing away. -/
theorem length_used (policy : Policy) (distinct : (entries.map Prod.fst).Nodup) (key : κ) :
    (entries.used policy key).length = entries.length := by
  have counted := length_without_add distinct key
  simp only [used, promoted]
  split
  · cases found : entries.lookup key with
    | none => rfl
    | some value =>
        rw [found] at counted
        exact counted
  · rfl

theorem length_used_le (policy : Policy) (entries : Lineup κ ν) (key : κ) :
    (entries.used policy key).length ≤ entries.length := by
  simp only [used, promoted]
  split
  · cases found : entries.lookup key with
    | none => exact Nat.le_refl _
    | some value => exact length_without_lt found
  · exact Nat.le_refl _

@[simp]
theorem length_written (entries : Lineup κ ν) (key : κ) (value : ν) :
    (entries.written key value).length = entries.length := List.length_map _

/-- There is nothing to insert into when the capacity is zero. -/
theorem inserted_of_capacity_eq_zero {policy : Policy} {capacity : Nat} (zero : capacity = 0)
    (fits : entries.length ≤ capacity) (key : κ) (value : ν) :
    entries.inserted policy capacity key value = entries := by
  subst zero
  rw [List.eq_nil_of_length_eq_zero (Nat.le_zero.mp fits)]
  rfl

omit [DecidableEq κ] in
/-- A new entry in front of those for which there is room: of a full lineup the last entry
does not fit any more. -/
theorem cons_makeRoom {capacity : Nat} (positive : 0 < capacity)
    (fits : entries.length ≤ capacity) (entry : κ × ν) :
    entry :: entries.makeRoom capacity = (entry :: entries).take capacity := by
  obtain ⟨rest, rfl⟩ := Nat.exists_eq_add_one_of_ne_zero (Nat.ne_of_gt positive)
  rw [List.take_succ_cons, makeRoom]
  split
  · next full => rw [List.dropLast_eq_take, full, Nat.add_sub_cancel]
  · next notFull => rw [List.take_of_length_le (by omega)]

/-- The entry of a new key comes first, and as many follow as the capacity admits. -/
theorem inserted_of_lookup_eq_none (policy : Policy) {capacity : Nat}
    (fits : entries.length ≤ capacity) (absent : entries.lookup key = none) (value : ν) :
    entries.inserted policy capacity key value = ((key, value) :: entries).take capacity := by
  by_cases zero : capacity = 0
  · rw [inserted_of_capacity_eq_zero zero fits, zero]
    exact List.eq_nil_of_length_eq_zero (Nat.le_zero.mp (zero ▸ fits))
  · rw [inserted, absent, Option.isSome_none, if_neg Bool.false_ne_true, if_neg zero,
      cons_makeRoom (Nat.pos_of_ne_zero zero) fits]

/-! ## What is looked up after an operation -/

theorem lookup_cons (entry : κ × ν) (entries : Lineup κ ν) (key : κ) :
    List.lookup key (entry :: entries) =
      if key = entry.1 then some entry.2 else entries.lookup key := by
  rw [List.lookup_cons]
  by_cases same : key = entry.1
  · rw [if_pos same, beq_iff_eq.mpr same]
  · rw [if_neg same, beq_eq_false_iff_ne.mpr same]

theorem lookup_without (entries : Lineup κ ν) (key other : κ) :
    (entries.without key).lookup other = if other = key then none else entries.lookup other := by
  induction entries with
  | nil => simp [without]
  | cons entry rest inductionHypothesis =>
      simp only [without] at inductionHypothesis ⊢
      by_cases removed : entry.1 = key
      · rw [List.filter_cons_of_neg (by simp [removed]), inductionHypothesis, lookup_cons]
        by_cases same : other = key
        · simp [same]
        · simp [same, removed]
      · rw [List.filter_cons_of_pos (by simp [removed]), lookup_cons, lookup_cons,
          inductionHypothesis]
        by_cases same : other = entry.1
        · simp [same, removed]
        · simp [same]

/-- A use of a key changes no value, whatever it does to the order. -/
theorem lookup_used (policy : Policy) (entries : Lineup κ ν) (key other : κ) :
    (entries.used policy key).lookup other = entries.lookup other := by
  simp only [used, promoted]
  split
  · cases found : entries.lookup key with
    | none => rfl
    | some value =>
        simp only
        rw [lookup_cons, lookup_without]
        by_cases same : other = key
        · simp [same, found]
        · simp [same]
  · rfl

theorem lookup_written (entries : Lineup κ ν) (key : κ) (value : ν) (other : κ) :
    (entries.written key value).lookup other =
      if other = key then (entries.lookup key).map fun _ => value else entries.lookup other := by
  induction entries with
  | nil => simp [written]
  | cons entry rest inductionHypothesis =>
      simp only [written] at inductionHypothesis ⊢
      rw [List.map_cons, lookup_cons, lookup_cons, lookup_cons, inductionHypothesis]
      by_cases changed : entry.1 = key
      · by_cases same : other = key
        · simp [same, changed]
        · simp [same, changed]
      · have different : ¬ key = entry.1 := fun equal => changed equal.symm
        by_cases same : other = key
        · simp [same, changed, different]
        · simp [same, changed]

/-- The last entry is the one that is not found any more once room was made. -/
theorem lookup_makeRoom {capacity : Nat} (distinct : (entries.map Prod.fst).Nodup) (key : κ) :
    (entries.makeRoom capacity).lookup key =
      if (entries.victim capacity).map Prod.fst = some key then none else entries.lookup key := by
  simp only [makeRoom, victim]
  split
  · rcases List.eq_nil_or_concat entries with rfl | ⟨front, last, rfl⟩
    · simp
    · rw [List.concat_eq_append] at distinct ⊢
      rw [List.dropLast_concat, List.getLast?_concat, List.lookup_append, lookup_cons]
      by_cases same : last.1 = key
      · have absent : front.lookup key = none :=
          lookup_eq_none_iff.mpr (same ▸ lacks_above distinct)
        simp [same, absent]
      · have different : ¬ key = last.1 := fun equal => same equal.symm
        simp [same, different]
  · simp

/-- An insertion leaves its value under its key. -/
theorem lookup_inserted (policy : Policy) {capacity : Nat} (entries : Lineup κ ν)
    (positive : 0 < capacity) (key : κ) (value : ν) :
    (entries.inserted policy capacity key value).lookup key = some value := by
  simp only [inserted]
  split
  · next present =>
      obtain ⟨old, found⟩ := Option.isSome_iff_exists.mp present
      rw [lookup_written, if_pos rfl, lookup_used, found]
      rfl
  · rw [if_neg (Nat.ne_of_gt positive), lookup_cons, if_pos rfl]

/-! ## Which entries stay, and in which order -/

theorem mem_without {entry : κ × ν} :
    entry ∈ entries.without key ↔ entry ∈ entries ∧ entry.1 ≠ key := by
  simp [without]

theorem without_without (entries : Lineup κ ν) (key : κ) :
    (entries.without key).without key = entries.without key := by
  simp [without]

theorem without_cons_self (entries : Lineup κ ν) (key : κ) (value : ν) :
    without ((key, value) :: entries) key = entries.without key :=
  List.filter_cons_of_neg (by simp)

theorem map_fst_without (entries : Lineup κ ν) (key : κ) :
    (entries.without key).map Prod.fst = (entries.map Prod.fst).filter (· ≠ key) := by
  rw [List.filter_map]
  rfl

theorem map_fst_written (entries : Lineup κ ν) (key : κ) (value : ν) :
    (entries.written key value).map Prod.fst = entries.map Prod.fst := by
  rw [written, List.map_map]
  apply List.map_congr_left
  intro entry _
  rw [Function.comp_apply]
  split
  · next same => exact same.symm
  · rfl

/-- A use of a key keeps the order of the other entries. -/
theorem without_used (policy : Policy) (entries : Lineup κ ν) (key : κ) :
    (entries.used policy key).without key = entries.without key := by
  rw [used, promoted]
  split
  · cases entries.lookup key with
    | none => rfl
    | some value => exact (without_cons_self _ key value).trans (without_without entries key)
  · rfl

/-- A value written under a key keeps the order of the other entries. -/
theorem without_written (entries : Lineup κ ν) (key : κ) (value : ν) :
    (entries.written key value).without key = entries.without key := by
  induction entries with
  | nil => rfl
  | cons entry rest inductionHypothesis =>
      simp only [written, without] at inductionHypothesis ⊢
      rw [List.map_cons]
      by_cases same : entry.1 = key
      · rw [if_pos same, List.filter_cons_of_neg (by simp),
          List.filter_cons_of_neg (by simp [same]), inductionHypothesis]
      · rw [if_neg same, List.filter_cons_of_pos (by simp [same]),
          List.filter_cons_of_pos (by simp [same]), inductionHypothesis]

omit [DecidableEq κ] in
/-- Where room is made, every entry stays but the victim. -/
theorem mem_makeRoom_iff {capacity : Nat} (distinct : (entries.map Prod.fst).Nodup)
    {entry : κ × ν} :
    entry ∈ entries.makeRoom capacity ↔
      entry ∈ entries ∧ entries.victim capacity ≠ some entry := by
  rw [makeRoom, victim]
  split
  · rcases List.eq_nil_or_concat entries with rfl | ⟨front, last, rfl⟩
    · simp
    · rw [List.concat_eq_append] at distinct
      have apart : last ∉ front := fun member => lacks_above distinct last member rfl
      rw [List.concat_eq_append, List.dropLast_concat, List.getLast?_concat, List.mem_append,
        List.mem_singleton]
      constructor
      · intro member
        exact ⟨.inl member, fun same => apart (Option.some.inj same ▸ member)⟩
      · rintro ⟨member | rfl, notLast⟩
        · exact member
        · exact absurd rfl notLast
  · simp

end Lineup

end GraphsAndCaches
