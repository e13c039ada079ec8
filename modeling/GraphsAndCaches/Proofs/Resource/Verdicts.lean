import GraphsAndCaches.Proofs.Resource.Refinement

/-!
# Verdicts of teardowns

A destruction may fail, and the cache tells so, but it does nothing else about it. Take two
caches with the same way to create values and any two ways to destroy them, whose state the
creation does not see. Whatever is asked of both, they stay in step: what one of them creates,
keeps or destroys, so does the other. Only an erasure lets a verdict out, as its reply.

The argument is on inventories. Turns that start from the same inventory and the same state of
creation end so, with the same calls but for the verdicts.
-/

namespace GraphsAndCaches

variable {ω γ δ ε κ τ : Type}

/-- Handlers each of which has a state of its own. -/
def Handlers.apart (create : κ → StateM γ (Option τ)) (destroy : κ → τ → StateM δ Bool) :
    Handlers (γ × δ) κ τ where
  create key := fun (making, unmaking) =>
    let (made, making) := (create key).run making
    (made, making, unmaking)
  destroy key value := fun (making, unmaking) =>
    let (verdict, unmaking) := (destroy key value).run unmaking
    (verdict, making, unmaking)

/-- A call with its verdict passed over, as if every destruction succeeded. -/
def HandlerCall.unjudged : HandlerCall κ τ → HandlerCall κ τ
  | .create key made => .create key made
  | .destroy key value _ => .destroy key value true

namespace Inventory

/-- Two turns agree when they make the same calls but for the verdicts, and leave the same
inventory and the same state of creation. -/
structure Turn.Agrees {α β : Type} (turn : Turn (γ × δ) κ τ α) (another : Turn (γ × ε) κ τ β) :
    Prop where
  calls : turn.calls.map HandlerCall.unjudged = another.calls.map HandlerCall.unjudged
  inventory : turn.inventory = another.inventory
  making : turn.outside.1 = another.outside.1

section Apart

variable (create : κ → StateM γ (Option τ)) (destroy : κ → τ → StateM δ Bool)
  (other : κ → τ → StateM ε Bool)

/-- A teardown asks for the same whatever it is answered, and does not touch the state of
creation. -/
theorem teardown_apart (outside : γ × δ) (inventory : List (κ × τ)) :
    (teardown (.apart create destroy) outside inventory).1.map HandlerCall.unjudged =
        inventory.map (fun (key, value) => .destroy key value true) ∧
      (teardown (.apart create destroy) outside inventory).2.1 = outside.1 := by
  induction inventory generalizing outside with
  | nil => exact ⟨rfl, rfl⟩
  | cons entry rest inductionHypothesis =>
      obtain ⟨key, value⟩ := entry
      obtain ⟨calls, same⟩ :=
        inductionHypothesis (outside.1, ((destroy key value).run outside.2).2)
      exact ⟨congrArg (HandlerCall.destroy key value true :: ·) calls, same⟩

variable {outside : γ × δ} {otherOutside : γ × ε}

/-- So two teardowns of one inventory differ in their verdicts only. -/
theorem teardown_agrees (same : outside.1 = otherOutside.1) (inventory : List (κ × τ)) :
    let torn := teardown (.apart create destroy) outside inventory
    let otherTorn := teardown (.apart create other) otherOutside inventory
    torn.1.map HandlerCall.unjudged = otherTorn.1.map HandlerCall.unjudged ∧
      torn.2.1 = otherTorn.2.1 := by
  obtain ⟨calls, kept⟩ := teardown_apart create destroy outside inventory
  obtain ⟨otherCalls, otherKept⟩ := teardown_apart create other otherOutside inventory
  exact ⟨calls.trans otherCalls.symm, kept.trans (same.trans otherKept.symm)⟩

variable [DecidableEq κ] [Ord κ]

/-- The turns of one request agree, with the same answer unless a value is erased. -/
theorem answer_agrees (same : outside.1 = otherOutside.1) (inventory : List (κ × τ))
    (request : ResourceCache.Request κ) :
    let turn := answer (.apart create destroy) outside inventory request
    let another := answer (.apart create other) otherOutside inventory request
    turn.Agrees another ∧
      (turn.answer = another.answer ∨
        ∃ key, request = .erase key ∧ (inventory.lookup key).isSome) := by
  obtain ⟨making, unmaking⟩ := outside
  obtain ⟨_, undoing⟩ := otherOutside
  cases same
  cases request with
  | put key force =>
      simp only [answer]
      split <;> exact ⟨⟨rfl, rfl, rfl⟩, .inl rfl⟩
  | get key =>
      simp only [answer]
      split <;> exact ⟨⟨rfl, rfl, rfl⟩, .inl rfl⟩
  | erase key =>
      simp only [answer]
      cases held : inventory.lookup key with
      | none => exact ⟨⟨rfl, rfl, rfl⟩, .inl rfl⟩
      | some value => exact ⟨⟨rfl, rfl, rfl⟩, .inr ⟨key, rfl, held ▸ rfl⟩⟩
  | clear =>
      have same : (making, unmaking).1 = (making, undoing).1 := rfl
      obtain ⟨calls, kept⟩ := teardown_agrees create destroy other same inventory
      exact ⟨⟨calls, rfl, kept⟩, .inl rfl⟩
  | contains key => exact ⟨⟨rfl, rfl, rfl⟩, .inl rfl⟩
  | size => exact ⟨⟨rfl, rfl, rfl⟩, .inl rfl⟩
  | isEmpty => exact ⟨⟨rfl, rfl, rfl⟩, .inl rfl⟩

/-- So do the turns of requests in order, by induction on what is still to be asked. -/
theorem answers_agree (same : outside.1 = otherOutside.1) (inventory : List (κ × τ))
    (requests : List (ResourceCache.Request κ)) :
    (answers (.apart create destroy) outside inventory requests).Agrees
      (answers (.apart create other) otherOutside inventory requests) := by
  induction requests generalizing outside otherOutside inventory with
  | nil => exact ⟨rfl, rfl, same⟩
  | cons request rest inductionHypothesis =>
      obtain ⟨calls, kept, making⟩ :=
        (answer_agrees create destroy other same inventory request).1
      have later := inductionHypothesis making
        (answer (.apart create destroy) outside inventory request).inventory
      simp only [answers, ← kept]
      exact ⟨by rw [List.map_append, List.map_append, calls, later.calls], later.inventory,
        later.making⟩

end Apart

end Inventory

namespace ResourceCache

open Inventory

variable [Ord κ] [Std.TransOrd κ] [Std.LawfulEqOrd κ] [DecidableEq κ]

/-- Verdicts do not interfere. Let two caches create values in the same way and destroy them in
any two ways whose states the creation does not see. After every step of the same requests they
hold the same entries, have called for the same creations and destructions in the same order,
with the same keys and values, and have left the same state of creation. The calls up to the end
of their lives are the same as well. Every request gets the same reply from both, unless it
erases a key that has a value by then. -/
theorem verdicts_do_not_interfere (create : κ → StateM γ (Option τ))
    (destroy : κ → τ → StateM δ Bool) (other : κ → τ → StateM ε Bool)
    (making : γ) (unmaking : δ) (undoing : ε) (requests : List (Request κ)) :
    let handlers := Handlers.apart create destroy
    let others := Handlers.apart create other
    let run := course handlers (making, unmaking)
    let otherRun := course others (making, undoing)
    (∀ count,
      (run (requests.take count)).1.2.toList = (otherRun (requests.take count)).1.2.toList ∧
      (calls handlers (making, unmaking) (requests.take count)).map HandlerCall.unjudged =
        (calls others (making, undoing) (requests.take count)).map HandlerCall.unjudged ∧
      (run (requests.take count)).2.outside.1 = (otherRun (requests.take count)).2.outside.1) ∧
      (lifelongCalls handlers (making, unmaking) requests).map HandlerCall.unjudged =
        (lifelongCalls others (making, undoing) requests).map HandlerCall.unjudged ∧
      ∀ position : Nat,
        (run requests).1.1[position]? = (otherRun requests).1.1[position]? ∨
          ∃ key, requests[position]? = some (.erase key) ∧
            (run (requests.take position)).1.2.contains key := by
  intro handlers others run otherRun
  have agree (asked : List (Request κ)) :
      (answers handlers (making, unmaking) [] asked).Agrees
        (answers others (making, undoing) [] asked) :=
    answers_agree create destroy other rfl [] asked
  refine ⟨fun count => ?_, ?_, fun position => ?_⟩
  · simp only [run, otherRun, toList_course, calls_eq, outside_course]
    exact ⟨(agree _).inventory, (agree _).calls, (agree _).making⟩
  · have torn := (teardown_agrees create destroy other (agree requests).making
      (answers handlers (making, unmaking) [] requests).inventory).1
    rw [lifelongCalls_eq, lifelongCalls_eq, List.map_append, List.map_append,
      (agree requests).calls, torn, (agree requests).inventory]
  · have before := agree (requests.take position)
    simp only [run, otherRun, replies_course, contains_eq_isSome_lookup, toList_course,
      getElem?_answers]
    cases requests[position]? with
    | none => exact .inl rfl
    | some request =>
        have answered := (answer_agrees create destroy other before.making
          (answers handlers (making, unmaking) [] (requests.take position)).inventory request).2
        simp only [Option.map_some, Option.some.injEq, ← before.inventory]
        exact answered

/-- Values are numbered as they are made, and the second creation fails. -/
def numbered (_ : Nat) : StateM Nat (Option Nat) :=
  fun made => (if made = 1 then none else some made, made + 1)

/-- No destruction succeeds. -/
def refused (_ _ : Nat) : StateM Unit Bool := return false

/-- Every second destruction succeeds. -/
def alternating (_ _ : Nat) : StateM Bool Bool := fun verdict => (verdict, !verdict)

/-- A forced `put` destroys a value in vain, since none can be made, and a lookup then makes one.
What is left at the end is destroyed as well. Only the erasure tells the handlers apart. -/
theorem refused_and_alternating_agree :
    Std.TransOrd Nat ∧ Std.LawfulEqOrd Nat ∧
      let requests : List (Request Nat) := [.put 7 false, .put 7 true, .get 7, .erase 7, .get 8]
      let run := course (.apart numbered refused) (0, ()) requests
      let otherRun := course (.apart numbered alternating) (0, false) requests
      run.1.2.toList = otherRun.1.2.toList ∧
        (lifelongCalls (.apart numbered refused) (0, ()) requests).map HandlerCall.unjudged =
          (lifelongCalls (.apart numbered alternating) (0, false) requests).map
            HandlerCall.unjudged ∧
        run.1.1[1]? = otherRun.1.1[1]? ∧
        run.1.1 = [.flag true, .flag false, .value (some 2), .flag false, .value (some 3)] ∧
        otherRun.1.1 = [.flag true, .flag false, .value (some 2), .flag true, .value (some 3)] := by
  obtain ⟨steps, calls, replies⟩ :=
    verdicts_do_not_interfere numbered refused alternating 0 () false
      [.put 7 false, .put 7 true, .get 7, .erase 7, .get 8]
  refine ⟨inferInstance, inferInstance, (steps 5).1, calls, ?_, ?_, ?_⟩
  · exact (replies 1).resolve_right nofun
  · decide +kernel
  · decide +kernel

end ResourceCache

end GraphsAndCaches
