import GraphsAndCaches.Proofs.Eviction.Lineup
import Mathlib.Data.List.Nodup

/-!
# Keys in the order of their last use

The values in a store from which the least recently used entry leaves have no influence on
which keys it has. A use of a key brings it to the front, whether the key moves there or
is new, and the capacity cuts the order off. Insertions and hits are the same in this.
-/

namespace GraphsAndCaches

variable {κ ν : Type} [DecidableEq κ]

/-- An order of keys once `key` was brought to its front. -/
def toFront (key : κ) (order : List κ) : List κ := key :: order.filter (· ≠ key)

/-- Of distinct keys at most one is `key`. -/
theorem length_le_length_filter_add_one {order : List κ} (distinct : order.Nodup) (key : κ) :
    order.length ≤ (order.filter (· ≠ key)).length + 1 := by
  have erased : order.length - 1 ≤ (order.erase key).length := List.le_length_erase
  have others : order.erase key = order.filter (· ≠ key) := by
    rw [distinct.erase_eq_filter]
    exact List.filter_congr fun other _ => by simp [bne, beq_eq_decide]
  rw [others] at erased
  exact Nat.sub_le_iff_le_add.mp erased

/-- An order that was cut off behind its first keys is cut off there again when a key comes
to the front. It does not matter whether the key was among those cut off. -/
theorem take_toFront_take {order : List κ} (distinct : order.Nodup) (key : κ) (capacity : Nat) :
    (toFront key (order.take capacity)).take capacity = (toFront key order).take capacity := by
  cases capacity with
  | zero => rfl
  | succ room =>
      rw [toFront, toFront, List.take_succ_cons, List.take_succ_cons]
      rcases Nat.lt_or_ge (room + 1) order.length with longer | all
      · have enough : room ≤ ((order.take (room + 1)).filter (· ≠ key)).length := by
          have removed := length_le_length_filter_add_one
            (distinct.sublist (List.take_sublist (room + 1) order)) key
          rw [List.length_take_of_le (Nat.le_of_lt longer)] at removed
          exact Nat.le_of_succ_le_succ removed
        conv_rhs => rw [← List.take_append_drop (room + 1) order, List.filter_append,
          List.take_append_of_le_length enough]
      · rw [List.take_of_length_le all]

namespace Lineup

variable {capacity : Nat} {entries : Lineup κ ν} {key : κ}

/-- A hit brings its key to the front. -/
theorem map_fst_used_lru (found : (entries.lookup key).isSome = true)
    (fits : entries.length ≤ capacity) :
    (entries.used .lru key).map Prod.fst = (toFront key (entries.map Prod.fst)).take capacity := by
  obtain ⟨value, stored⟩ := Option.isSome_iff_exists.mp found
  have moved : (entries.used .lru key).map Prod.fst = toFront key (entries.map Prod.fst) := by
    change (entries.promoted key).map Prod.fst = _
    rw [promoted, stored]
    exact congrArg (List.cons key) (map_fst_without entries key)
  rw [← moved, List.take_of_length_le]
  rw [List.length_map]
  exact Nat.le_trans (length_used_le .lru entries key) fits

/-- An insertion brings its key to the front, and a last key that is too much leaves. -/
theorem map_fst_inserted_lru (fits : entries.length ≤ capacity) (key : κ) (value : ν) :
    (entries.inserted .lru capacity key value).map Prod.fst =
      (toFront key (entries.map Prod.fst)).take capacity := by
  cases found : entries.lookup key with
  | some old =>
      have resident : (entries.lookup key).isSome = true := found ▸ rfl
      rw [inserted, if_pos resident, map_fst_written, map_fst_used_lru resident fits]
  | none =>
      have others := map_fst_without entries key
      rw [without_of_lacks (lookup_eq_none_iff.mp found)] at others
      rw [inserted_of_lookup_eq_none .lru fits found, List.map_take, List.map_cons, toFront,
        ← others]

end Lineup

end GraphsAndCaches
