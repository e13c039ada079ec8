import GraphsAndCaches.Proofs.Resource.ResourceCache
import Mathlib.Data.List.Sort

/-!
# Inventories

An inventory is a plain list of entries in the strict order of their keys. Everything that can
be asked of a resource cache can be answered from an inventory, one request after another, and
each answer tells which calls the handlers get on the way: none for a key that is listed,
unless `put` is forced, one creation for a key that is not, and one destruction for every entry
that leaves.
-/

namespace GraphsAndCaches

variable {ω κ τ : Type}

/-! ## Entries in the order of their keys -/

namespace Inventory

section Order

variable [Ord κ]

/-- The keys of an inventory increase from each entry to all that follow. -/
def Ordered (inventory : List (κ × τ)) : Prop :=
  inventory.Pairwise fun former latter => compare former.1 latter.1 = .lt

/-- Put a value into an inventory, in the place of the value that its key had. -/
def place (key : κ) (value : τ) : List (κ × τ) → List (κ × τ)
  | [] => [(key, value)]
  | (other, kept) :: rest =>
      match compare key other with
      | .lt => (key, value) :: (other, kept) :: rest
      | .eq => (key, value) :: rest
      | .gt => (other, kept) :: place key value rest

theorem ne_of_compare_ne_eq [Std.ReflOrd κ] {key other : κ}
    (differ : compare key other ≠ .eq) : other ≠ key := by
  rintro rfl
  exact differ Std.ReflOrd.compare_self

namespace Ordered

variable {inventory rest : List (κ × τ)} {entry : κ × τ} {key other : κ} {value kept : τ}

/-- What comes before the first key of an inventory comes before all of them. -/
theorem precedes [Std.TransOrd κ] (ordered : Ordered ((other, kept) :: rest))
    (before : compare key other = .lt) (member : entry ∈ (other, kept) :: rest) :
    compare key entry.1 = .lt := by
  obtain rfl | member := List.mem_cons.mp member
  · exact before
  · exact Std.TransCmp.lt_trans before ((List.pairwise_cons.mp ordered).1 entry member)

theorem nodup [Std.TransOrd κ] (ordered : Ordered inventory) : inventory.Nodup := by
  refine List.Pairwise.imp ?_ ordered
  rintro former _ increasing rfl
  exact ne_of_compare_ne_eq (by rw [increasing]; nofun) rfl

/-- An ordered inventory is determined by its entries. -/
theorem eq_of_mem_iff [Std.TransOrd κ] {other : List (κ × τ)} (ordered : Ordered inventory)
    (otherOrdered : Ordered other) (same : ∀ entry, entry ∈ inventory ↔ entry ∈ other) :
    inventory = other := by
  have permuted := (List.perm_ext_iff_of_nodup ordered.nodup otherOrdered.nodup).mpr same
  refine permuted.eq_of_pairwise ?_ ordered otherOrdered
  intro former latter _ _ increasing decreasing
  exact absurd decreasing (Std.OrientedCmp.not_lt_of_lt increasing)

variable [Std.TransOrd κ] [Std.LawfulEqOrd κ]

/-- The entry of a key is replaced, and the others stay. -/
theorem mem_place_iff (ordered : Ordered inventory) :
    entry ∈ place key value inventory ↔
      entry = (key, value) ∨ entry.1 ≠ key ∧ entry ∈ inventory := by
  induction inventory with
  | nil => simp [place]
  | cons head rest inductionHypothesis =>
      obtain ⟨other, kept⟩ := head
      obtain ⟨increasing, restOrdered⟩ := List.pairwise_cons.mp ordered
      rw [place]
      cases comparison : compare key other with
      | lt =>
          have later : entry ∈ (other, kept) :: rest → entry.1 ≠ key := fun member =>
            ne_of_compare_ne_eq (by rw [ordered.precedes comparison member]; nofun)
          rw [List.mem_cons]
          exact or_congr_right ⟨fun member => ⟨later member, member⟩, And.right⟩
      | eq =>
          obtain rfl := Std.LawfulEqOrd.eq_of_compare comparison
          have later : entry ∈ rest → entry.1 ≠ key := fun member =>
            ne_of_compare_ne_eq (by rw [increasing entry member]; nofun)
          rw [List.mem_cons, List.mem_cons]
          refine or_congr_right ⟨fun member => ⟨later member, .inr member⟩, ?_⟩
          rintro ⟨another, rfl | member⟩
          · exact absurd rfl another
          · exact member
      | gt =>
          have earlier : other ≠ key := ne_of_compare_ne_eq (by rw [comparison]; nofun)
          have placed := inductionHypothesis restOrdered
          rw [List.mem_cons, List.mem_cons, placed]
          constructor
          · rintro (rfl | rfl | ⟨another, member⟩)
            · exact .inr ⟨earlier, .inl rfl⟩
            · exact .inl rfl
            · exact .inr ⟨another, .inr member⟩
          · rintro (rfl | ⟨another, rfl | member⟩)
            · exact .inr (.inl rfl)
            · exact .inl rfl
            · exact .inr (.inr ⟨another, member⟩)

/-- A value is placed where its key belongs in the order. -/
theorem place (ordered : Ordered inventory) (key : κ) (value : τ) :
    Ordered (Inventory.place key value inventory) := by
  induction inventory with
  | nil => exact List.pairwise_singleton _ _
  | cons head rest inductionHypothesis =>
      obtain ⟨other, kept⟩ := head
      obtain ⟨increasing, restOrdered⟩ := List.pairwise_cons.mp ordered
      rw [Inventory.place]
      cases comparison : compare key other with
      | lt =>
          exact List.pairwise_cons.mpr ⟨fun _ => ordered.precedes comparison, ordered⟩
      | eq =>
          obtain rfl := Std.LawfulEqOrd.eq_of_compare comparison
          exact List.pairwise_cons.mpr ⟨increasing, restOrdered⟩
      | gt =>
          refine List.pairwise_cons.mpr ⟨?_, inductionHypothesis restOrdered⟩
          intro entry member
          obtain rfl | ⟨-, member⟩ := (mem_place_iff restOrdered).mp member
          · exact Std.OrientedCmp.lt_of_gt comparison
          · exact increasing entry member

end Ordered

end Order

/-! ## Answers from an inventory -/

/-- An inventory after an attempt to make a value. Without a value it stays as it is. -/
def stored [Ord κ] (key : κ) (made : Option τ) (inventory : List (κ × τ)) : List (κ × τ) :=
  match made with
  | none => inventory
  | some value => place key value inventory

/-- An inventory without the entry of a key. -/
def without [DecidableEq κ] (key : κ) (inventory : List (κ × τ)) : List (κ × τ) :=
  inventory.filter fun entry => entry.1 ≠ key

/-- What comes of requests: what they are answered, the calls of the handlers in their
order, the inventory after them, and the state in which the handlers are left. -/
structure Turn (ω κ τ α : Type) where
  answer : α
  calls : List (HandlerCall κ τ)
  inventory : List (κ × τ)
  outside : ω

/-- Destroy the value of every entry in order, whatever the verdicts are. -/
def teardown (handlers : Handlers ω κ τ) (outside : ω) :
    List (κ × τ) → List (HandlerCall κ τ) × ω
  | [] => ([], outside)
  | (key, value) :: rest =>
      let (verdict, outside) := (handlers.destroy key value).run outside
      let (calls, outside) := teardown handlers outside rest
      (.destroy key value verdict :: calls, outside)

/-- The entry whose value a call destroys. -/
def torn? : HandlerCall κ τ → Option (κ × τ)
  | .create _ _ => none
  | .destroy key value _ => some (key, value)

/-- A teardown destroys the value of each entry once, in the order of the inventory. -/
theorem teardown_calls (handlers : Handlers ω κ τ) (outside : ω) (inventory : List (κ × τ)) :
    (teardown handlers outside inventory).1.map torn? = inventory.map some := by
  induction inventory generalizing outside with
  | nil => rfl
  | cons entry rest inductionHypothesis =>
      exact congrArg (some entry :: ·) (inductionHypothesis _)

section Answers

variable [DecidableEq κ] [Ord κ]

/-- Answer one request from an inventory. -/
def answer (handlers : Handlers ω κ τ) (outside : ω) (inventory : List (κ × τ)) :
    ResourceCache.Request κ → Turn ω κ τ (Reply κ τ)
  | .put key force =>
      match inventory.lookup key, force with
      | none, _ =>
          let (made, outside) := (handlers.create key).run outside
          { answer := .flag made.isSome, calls := [.create key made]
            inventory := stored key made inventory, outside }
      | some _, false => { answer := .flag false, calls := [], inventory, outside }
      | some value, true =>
          let (verdict, outside) := (handlers.destroy key value).run outside
          let (made, outside) := (handlers.create key).run outside
          { answer := .flag made.isSome
            calls := [.destroy key value verdict, .create key made]
            inventory := stored key made (without key inventory), outside }
  | .get key =>
      match inventory.lookup key with
      | none =>
          let (made, outside) := (handlers.create key).run outside
          { answer := .value made, calls := [.create key made]
            inventory := stored key made inventory, outside }
      | some value => { answer := .value (some value), calls := [], inventory, outside }
  | .contains key =>
      { answer := .flag (inventory.lookup key).isSome, calls := [], inventory, outside }
  | .size => { answer := .count inventory.length, calls := [], inventory, outside }
  | .isEmpty => { answer := .flag inventory.isEmpty, calls := [], inventory, outside }
  | .erase key =>
      match inventory.lookup key with
      | none => { answer := .flag false, calls := [], inventory, outside }
      | some value =>
          let (verdict, outside) := (handlers.destroy key value).run outside
          { answer := .flag verdict, calls := [.destroy key value verdict]
            inventory := without key inventory, outside }
  | .clear =>
      let (calls, outside) := teardown handlers outside inventory
      { answer := .done, calls, inventory := [], outside }

/-- Answer requests in order. -/
def answers (handlers : Handlers ω κ τ) (outside : ω) (inventory : List (κ × τ)) :
    List (ResourceCache.Request κ) → Turn ω κ τ (List (Reply κ τ))
  | [] => { answer := [], calls := [], inventory, outside }
  | request :: rest =>
      let first := answer handlers outside inventory request
      let later := answers handlers first.outside first.inventory rest
      { later with answer := first.answer :: later.answer, calls := first.calls ++ later.calls }

/-- The answer at a position is given from the inventory that the requests before it leave. -/
theorem getElem?_answers (handlers : Handlers ω κ τ) (outside : ω) (inventory : List (κ × τ))
    (requests : List (ResourceCache.Request κ)) (position : Nat) :
    let before := answers handlers outside inventory (requests.take position)
    (answers handlers outside inventory requests).answer[position]? =
      requests[position]?.map fun request =>
        (answer handlers before.outside before.inventory request).answer := by
  induction requests generalizing outside inventory position with
  | nil => rfl
  | cons request rest inductionHypothesis =>
      cases position with
      | zero => rfl
      | succ position => exact inductionHypothesis _ _ position

end Answers

/-! ## Handlers under record

Under record handlers write down the calls that an inventory tells, after those that they have
written down before.
-/

/-- The same turn of handlers under record, which write their calls down. -/
def Turn.noted {α : Type} (turn : Turn ω κ τ α) (log : Supervised ω κ τ) :
    Turn (Supervised ω κ τ) κ τ α :=
  { turn with outside := { outside := turn.outside, calls := log.calls ++ turn.calls } }

theorem teardown_recording (handlers : Handlers ω κ τ) (log : Supervised ω κ τ)
    (inventory : List (κ × τ)) :
    teardown handlers.recording log inventory =
      ((teardown handlers log.outside inventory).1,
        { outside := (teardown handlers log.outside inventory).2
          calls := log.calls ++ (teardown handlers log.outside inventory).1 }) := by
  induction inventory generalizing log with
  | nil => rfl
  | cons entry rest inductionHypothesis =>
      rw [teardown, Handlers.run_recording_destroy]
      simp only [inductionHypothesis]
      rfl

variable [Ord κ] [DecidableEq κ]

theorem answer_recording (handlers : Handlers ω κ τ) (log : Supervised ω κ τ)
    (inventory : List (κ × τ)) (request : ResourceCache.Request κ) :
    answer handlers.recording log inventory request =
      (answer handlers log.outside inventory request).noted log := by
  cases request with
  | put key force =>
      simp only [answer]
      split <;> rfl
  | get key =>
      simp only [answer]
      split <;> rfl
  | erase key =>
      simp only [answer]
      split <;> rfl
  | clear =>
      rw [answer, teardown_recording]
      rfl
  | contains key => rfl
  | size => rfl
  | isEmpty => rfl

theorem answers_recording (handlers : Handlers ω κ τ) (log : Supervised ω κ τ)
    (inventory : List (κ × τ)) (requests : List (ResourceCache.Request κ)) :
    answers handlers.recording log inventory requests =
      (answers handlers log.outside inventory requests).noted log := by
  induction requests generalizing log inventory with
  | nil => rfl
  | cons request rest inductionHypothesis =>
      have joined (first second : List (HandlerCall κ τ)) :
          log.calls ++ first ++ second = log.calls ++ (first ++ second) := Array.ext' (by simp)
      simp only [answers, answer_recording, inductionHypothesis, Turn.noted, joined]

end Inventory

end GraphsAndCaches
