import GraphsAndCaches.Proofs.Eviction.BoundedStore
import GraphsAndCaches.Proofs.Eviction.Recency

/-!
# A larger store has the keys of a smaller one

Two stores of different capacities serve the same accesses, and the least recently used
entry leaves from both. A read that misses is made good from elsewhere: the value is
inserted by the store that missed and by no other. In spite of this the keys of the
smaller store are at every moment the first keys of the larger one, so that the larger
store finds whatever the smaller one finds.

What an access does to the keys does not depend on the values, and is the same for every
capacity up to the point where the order is cut off. Both stores therefore do the same to
two orders of which one is a prefix of the other.
-/

namespace GraphsAndCaches.BoundedStore

variable {policy : Policy} {κ ν : Type} [DecidableEq κ] [Hashable κ]

/-- How users of a store go about it when they fetch a value that they miss. -/
inductive Access (κ ν : Type) where
  | insert (key : κ) (value : ν)
  | erase (key : κ)
  | clear
  | peek (key : κ)
  | find (key : κ)
  /-- Read the value of `key`. If there is none, fetch `value` and insert it. -/
  | readThrough (key : κ) (value : ν)

/-- Serve one access, and tell whether it found its key. -/
def serve (store : BoundedStore policy κ ν) : Access κ ν → Bool × BoundedStore policy κ ν
  | .insert key value =>
      let (old, store) := store.insert key value
      (old.isSome, store)
  | .erase key =>
      let (value, store) := store.erase key
      (value.isSome, store)
  | .clear => (false, store.clear)
  | .peek key => ((store.read key).isSome, store.count .peek)
  | .find key => (store.contains key, store.count .find)
  | .readThrough key value =>
      match store.get key with
      | (some _, store) => (true, store)
      | (none, store) => (false, (store.insert key value).2)

/-- Serve accesses in order, and tell for each whether it found its key. -/
def serveAll (store : BoundedStore policy κ ν) :
    List (Access κ ν) → List Bool × BoundedStore policy κ ν
  | [] => ([], store)
  | access :: rest =>
      let (found, store) := store.serve access
      let (others, store) := store.serveAll rest
      (found :: others, store)

/-! ## Accesses to orders of keys -/

namespace Access

omit [Hashable κ]

/-- Whether an access finds its key in an order of keys, and the order then. -/
def onKeys (capacity : Nat) (keys : List κ) : Access κ ν → Bool × List κ
  | .insert key _ | .readThrough key _ => (decide (key ∈ keys), (toFront key keys).take capacity)
  | .erase key => (decide (key ∈ keys), keys.filter (· ≠ key))
  | .clear => (false, [])
  | .peek key | .find key => (decide (key ∈ keys), keys)

/-- The same for accesses one after another. -/
def allOnKeys (capacity : Nat) (keys : List κ) : List (Access κ ν) → List Bool × List κ
  | [] => ([], keys)
  | access :: rest =>
      let (found, keys) := access.onKeys capacity keys
      let (others, keys) := allOnKeys capacity keys rest
      (found :: others, keys)

variable {small large : Nat} {smaller larger : List κ}

/-- An access to an order finds its key in every order of which that is a prefix, and if
the latter may be longer, one is a prefix of the other afterwards. -/
theorem onKeys_mono (le : small ≤ large) (within : smaller <+: larger) (access : Access κ ν) :
    ((access.onKeys small smaller).1 = true → (access.onKeys large larger).1 = true) ∧
      (access.onKeys small smaller).2 <+: (access.onKeys large larger).2 := by
  have found : ∀ key, decide (key ∈ smaller) = true → decide (key ∈ larger) = true := by
    intro key member
    exact decide_eq_true (within.subset (of_decide_eq_true member))
  have used : ∀ key, (toFront key smaller).take small <+: (toFront key larger).take large := by
    intro key
    have forward : toFront key smaller <+: toFront key larger :=
      List.cons_prefix_cons.mpr ⟨rfl, within.filter _⟩
    exact List.prefix_take_iff.mpr ⟨(List.take_prefix small _).trans forward,
      Nat.le_trans (List.length_take_le small _) le⟩
  cases access with
  | insert key value => exact ⟨found key, used key⟩
  | readThrough key value => exact ⟨found key, used key⟩
  | erase key => exact ⟨found key, within.filter _⟩
  | clear => exact ⟨id, List.prefix_rfl⟩
  | peek key => exact ⟨found key, within⟩
  | find key => exact ⟨found key, within⟩

theorem allOnKeys_mono (le : small ≤ large) (within : smaller <+: larger)
    (accesses : List (Access κ ν)) :
    List.Forall₂ (fun found foundToo => found = true → foundToo = true)
        (allOnKeys small smaller accesses).1 (allOnKeys large larger accesses).1 ∧
      (allOnKeys small smaller accesses).2 <+: (allOnKeys large larger accesses).2 := by
  induction accesses generalizing smaller larger with
  | nil => exact ⟨.nil, within⟩
  | cons access rest inductionHypothesis =>
      obtain ⟨first, next⟩ := access.onKeys_mono le within
      obtain ⟨others, final⟩ := inductionHypothesis next
      exact ⟨.cons first others, final⟩

end Access

/-! ## Accesses to stores -/

variable {store : LruStore κ ν} {capacity : Nat} {entries : Lineup κ ν}

/-- A store serves an access as its keys do. -/
theorem Holds.serve (holds : store.Holds capacity entries) (access : Access κ ν) :
    ∃ next : Lineup κ ν, (store.serve access).2.Holds capacity next ∧
      access.onKeys capacity (entries.map Prod.fst) =
        ((store.serve access).1, next.map Prod.fst) := by
  have found : ∀ key, decide (key ∈ entries.map Prod.fst) = (entries.lookup key).isSome := by
    intro key
    rw [Bool.eq_iff_iff, decide_eq_true_iff, Lineup.mem_map_fst_iff]
  cases access with
  | insert key value =>
      obtain ⟨old, inserted⟩ := holds.insert key value
      refine ⟨_, inserted, ?_⟩
      rw [Access.onKeys, found, ← old, Lineup.map_fst_inserted_lru holds.fits]
      rfl
  | erase key =>
      obtain ⟨value, erased⟩ := holds.erase key
      refine ⟨_, erased, ?_⟩
      rw [Access.onKeys, found, ← value, Lineup.map_fst_without]
      rfl
  | clear => exact ⟨[], holds.clear, rfl⟩
  | peek key =>
      refine ⟨entries, holds.count .peek, ?_⟩
      rw [Access.onKeys, found, ← holds.read_eq]
      rfl
  | find key =>
      refine ⟨entries, holds.count .find, ?_⟩
      rw [Access.onKeys, found, ← holds.contains_eq]
      rfl
  | readThrough key value =>
      obtain ⟨read, used⟩ := holds.get key
      rw [Access.onKeys, found, BoundedStore.serve]
      generalize store.get key = outcome at read used
      obtain ⟨answer, rest⟩ := outcome
      cases stored : entries.lookup key with
      | some value =>
          obtain rfl := read.trans stored
          have hit : (entries.lookup key).isSome = true := stored ▸ rfl
          refine ⟨_, used, ?_⟩
          rw [Lineup.map_fst_used_lru hit holds.fits]
          rfl
      | none =>
          obtain rfl := read.trans stored
          rw [Lineup.used_of_lookup_eq_none .lru stored] at used
          refine ⟨_, (used.insert key value).2, ?_⟩
          rw [Lineup.map_fst_inserted_lru holds.fits]
          rfl

/-- A store serves accesses as its keys do. -/
theorem Holds.serveAll (holds : store.Holds capacity entries) (accesses : List (Access κ ν)) :
    Access.allOnKeys capacity (entries.map Prod.fst) accesses =
      ((store.serveAll accesses).1, (store.serveAll accesses).2.toList.map Prod.fst) := by
  induction accesses generalizing store entries with
  | nil => exact congrArg (Prod.mk []) (congrArg (List.map Prod.fst) holds.toList_eq.symm)
  | cons access rest inductionHypothesis =>
      obtain ⟨next, held, served⟩ := holds.serve access
      rw [Access.allOnKeys, served]
      simp only [inductionHypothesis held]
      rfl

/-- The least recently used entry leaves from two stores that serve the same accesses from
the beginning. Then the keys of the store with the smaller capacity are the first keys of
the other, and every access that finds its key in the former finds it in the latter. As
the list of accesses is arbitrary, this is so after every access. -/
theorem lru_inclusion {small large : Nat} (le : small ≤ large) (accesses : List (Access κ ν)) :
    let smaller := (ofCapacity small : LruStore κ ν).serveAll accesses
    let larger := (ofCapacity large : LruStore κ ν).serveAll accesses
    smaller.2.toList.map Prod.fst <+: larger.2.toList.map Prod.fst ∧
      List.Forall₂ (fun found foundToo => found = true → foundToo = true) smaller.1 larger.1 := by
  have fresh : ∀ capacity, (ofCapacity capacity : LruStore κ ν).Holds capacity [] :=
    holds_ofCapacity
  obtain ⟨found, keys⟩ := Access.allOnKeys_mono le (List.prefix_refl ([] : List κ)) accesses
  have first := (fresh small).serveAll accesses
  have second := (fresh large).serveAll accesses
  rw [List.map_nil] at first second
  rw [first, second] at found keys
  exact ⟨keys, found⟩

/-- With room for one key the second read misses that hits with room for two, and after an
erasure the smaller store has fewer keys than it may. -/
theorem lru_one_within_two :
    let accesses : List (Access Nat Char) :=
      [.readThrough 1 'a', .readThrough 2 'b', .readThrough 1 'c', .insert 3 'd', .erase 3]
    let smaller := (ofCapacity 1 : LruStore Nat Char).serveAll accesses
    let larger := (ofCapacity 2 : LruStore Nat Char).serveAll accesses
    1 ≤ 2 ∧ smaller.1 = [false, false, false, false, true] ∧
      larger.1 = [false, false, true, false, true] ∧
      smaller.2.toList.map Prod.fst = [] ∧ larger.2.toList.map Prod.fst = [1] ∧
      smaller.2.toList.map Prod.fst <+: larger.2.toList.map Prod.fst ∧
      List.Forall₂ (fun found foundToo => found = true → foundToo = true)
        smaller.1 larger.1 := by
  intro accesses smaller larger
  have first : Access.allOnKeys 1 [] accesses = (smaller.1, smaller.2.toList.map Prod.fst) :=
    (holds_ofCapacity 1).serveAll accesses
  have second : Access.allOnKeys 2 [] accesses = (larger.1, larger.2.toList.map Prod.fst) :=
    (holds_ofCapacity 2).serveAll accesses
  exact ⟨by decide, (congrArg Prod.fst first).symm, (congrArg Prod.fst second).symm,
    (congrArg Prod.snd first).symm, (congrArg Prod.snd second).symm,
    lru_inclusion (by decide) accesses⟩

end GraphsAndCaches.BoundedStore
