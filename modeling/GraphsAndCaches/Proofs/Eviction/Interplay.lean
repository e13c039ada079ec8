import GraphsAndCaches.Proofs.Eviction.Transparency

/-!
# How a cache treats a store that may not keep its word

A cache trusts its store with the entries, but it announces nothing on trust. Whatever the
store is, an insertion into a cache with capacity calls the store once. Before the call it
announces the entry that the store names, if the store is full and does not find the key, and
after the call it announces what the store shows under the key, if it shows anything. A store
may therefore refuse an entry, or name no victim, and the announcements are still those of
its own answers.

To say which calls reach a store, its operations and the callbacks are traced: each does what
it did before and appends a move to a trace, which nobody reads. A traced run has the outcome
of the plain one, and its trace is put together from the moves of the requests. Of the store
nothing is assumed but that a question for a key leaves its other answers alone.
-/

namespace GraphsAndCaches

variable {ω σ κ ν : Type}

/-- A question for a key changes neither whether the store is full nor what it would drop. -/
structure Observable.FindObserves (σ : Type) {κ ν : Type} [Observable σ κ ν] : Prop where
  isFull_eq : ∀ store : σ,
    Observable.isFull (Observable.afterFind store) = Observable.isFull store
  nextErasure_eq : ∀ store : σ,
    Observable.nextErasure (Observable.afterFind store) = Observable.nextErasure store

/-- What a trace remembers: an announcement, or a call of an operation that may change the
store, with the store that it met, its answer, and the store that it left. -/
inductive Move (σ κ ν : Type) where
  | announced (announcement : Announcement κ ν)
  | called (operation : Request κ ν) (met : σ) (answer : Option ν) (left : σ)
deriving DecidableEq

namespace Move

/-- The operation of the store that was called, if the move is a call. -/
def operation? : Move σ κ ν → Option (Request κ ν)
  | .announced _ => none
  | .called operation .. => some operation

/-- The announcement of an entry that leaves, if one does. -/
def departure (leaving : Option (κ × ν)) : List (Move σ κ ν) :=
  (leaving.map fun entry => .announced (.departure entry.1 entry.2)).toList

/-- The announcement of what is stored under a key, if anything is. -/
def arrival (key : κ) (stored : Option ν) : List (Move σ κ ν) :=
  (stored.map fun value => .announced (.arrival key value)).toList

@[simp]
theorem operations_departure (leaving : Option (κ × ν)) :
    (departure leaving : List (Move σ κ ν)).filterMap operation? = [] := by
  cases leaving <;> rfl

@[simp]
theorem operations_arrival (key : κ) (stored : Option ν) :
    (arrival key stored : List (Move σ κ ν)).filterMap operation? = [] := by
  cases stored <;> rfl

end Move

/-! ## Tracing -/

/-- Run outside code, and append the move that its answer makes. -/
def tracing {α : Type} (action : StateM ω α) (move : α → Move σ κ ν) :
    StateM (ω × List (Move σ κ ν)) α := fun (outside, moves) =>
  let (answer, outside) := action.run outside
  (answer, (outside, moves ++ [move answer]))

def Callbacks.traced (callbacks : Callbacks ω κ ν) :
    Callbacks (ω × List (Move σ κ ν)) κ ν where
  onInsert key value :=
    tracing (callbacks.onInsert key value) fun _ => .announced (.arrival key value)
  onEvict key value :=
    tracing (callbacks.onEvict key value) fun _ => .announced (.departure key value)

/-- Let a traced operation change a recorded store. -/
def Recorded.tracedCall (recorded : Recorded σ) (operation : Request κ ν)
    (action : σ → StateM ω (Option ν × σ)) :
    StateM (ω × List (Move σ κ ν)) (Option ν × Recorded σ) := do
  let (answer, left) ← tracing (action recorded.store) fun (answer, left) =>
    .called operation recorded.store answer left
  return (answer, ⟨left⟩)

instance [Observable σ κ ν] [Store (StateM ω) σ κ ν] :
    Store (StateM (ω × List (Move σ κ ν))) (Recorded σ) κ ν where
  get recorded key := recorded.tracedCall (.get key) (Store.get · key)
  insert recorded key value := recorded.tracedCall (.insert key value) (Store.insert · key value)
  erase recorded key := recorded.tracedCall (.erase key) (Store.erase · key)
  clear recorded := do
    let (_, left) ← recorded.tracedCall .clear fun store => do return (none, ← Store.clear store)
    return left

namespace EvictingCache

/-- The same cache with its store and its callbacks traced. -/
def traced (cache : EvictingCache ω σ κ ν) :
    EvictingCache (ω × List (Move σ κ ν)) (Recorded σ) κ ν where
  store := ⟨cache.store⟩
  callbacks := cache.callbacks.traced

/-- The same answer with the cache traced that comes with it. -/
def answerTraced {α : Type} : α × EvictingCache ω σ κ ν →
    α × EvictingCache (ω × List (Move σ κ ν)) (Recorded σ) κ ν :=
  Prod.map id traced

end EvictingCache

/-- The same surroundings with a trace beside the state of the outside code. -/
def Surroundings.traced (around : Surroundings ω) (moves : List (Move σ κ ν)) :
    Surroundings (ω × List (Move σ κ ν)) where
  outside := (around.outside, moves)
  journal := around.journal

/-- In these surroundings the second act does what the first one does, up to the form of the
answer, and appends the moves to the trace. -/
def Act.Traces {α β : Type} (plain : Act ω α) (traced : Act (ω × List (Move σ κ ν)) β)
    (form : α → β) (around : Surroundings ω) (moves : List (Move σ κ ν)) : Prop :=
  ∀ earlier : List (Move σ κ ν), traced.run (around.traced earlier) =
    (form (plain.run around).1, (plain.run around).2.traced (earlier ++ moves))

namespace Act.Traces

open EvictingCache (answerTraced)

variable {α β γ δ : Type} {around : Surroundings ω} {moves more : List (Move σ κ ν)}

/-- Acts that are alike without a trace make no moves. -/
theorem silent {plain : Act ω α} {traced : Act (ω × List (Move σ κ ν)) β} {form : α → β}
    (alike : ∀ earlier : List (Move σ κ ν), traced.run (around.traced earlier) =
      (form (plain.run around).1, (plain.run around).2.traced earlier)) :
    Act.Traces plain traced form around [] := by
  intro earlier
  rw [List.append_nil]
  exact alike earlier

/-- The moves of one act come before those of the next. -/
theorem bind {first : Act ω α} {second : α → Act ω γ} {form : α → β} {next : γ → δ}
    {tracedFirst : Act (ω × List (Move σ κ ν)) β}
    {tracedSecond : β → Act (ω × List (Move σ κ ν)) δ}
    (traces : Act.Traces first tracedFirst form around moves)
    (goesOn : Act.Traces (second (first.run around).1) (tracedSecond (form (first.run around).1))
      next (first.run around).2 more) :
    Act.Traces (first >>= second) (tracedFirst >>= tracedSecond) next around (moves ++ more) := by
  intro earlier
  rw [Act.run_bind, Act.run_bind, traces earlier, goesOn (earlier ++ moves), List.append_assoc]

/-- An answer is put into another form without a move. -/
theorem answer {plain : Act ω (α × EvictingCache ω σ κ ν)}
    {traced : Act (ω × List (Move σ κ ν))
      (α × EvictingCache (ω × List (Move σ κ ν)) (Recorded σ) κ ν)}
    (traces : Act.Traces plain traced answerTraced around moves) (reply : α → β) :
    Act.Traces (do let (answer, cache) ← plain; return (reply answer, cache))
      (do let (answer, cache) ← traced; return (reply answer, cache)) answerTraced around
      moves := by
  intro earlier
  rw [Act.run_bind, traces earlier]
  rfl

end Act.Traces

/-! ## One request -/

/-- One request to a cache: the store that it met, the reply, the moves that were made for it,
and the store that it left. -/
structure Exchange (σ κ ν : Type) where
  before : σ
  request : Request κ ν
  reply : Reply κ ν
  moves : List (Move σ κ ν)
  after : σ

variable [Observable σ κ ν]

/-- The entry that is about to leave when a key is written: the one that the store names if it
is full and does not find the key. -/
def Observable.departing (store : σ) (key : κ) : Option (κ × ν) :=
  if Observable.find store key then none
  else if Observable.isFull store then Observable.nextErasure store
  else none

namespace Exchange

/-- What happens between the two ends of an exchange. Without capacity an insertion does
nothing. With capacity it makes one call, after the announcement of what is about to leave and
before that of what the store then shows. An erasure announces what the store gives back. All
other requests pass in silence, and a question makes no call. -/
inductive Interleaved : Exchange σ κ ν → Prop where
  | refused (store : σ) (key : κ) (value : ν) (zero : Observable.capacity store = 0) :
      Interleaved
        { before := store, request := .insert key value, reply := .flag false, moves := [],
          after := store }
  | inserted (store left : σ) (key : κ) (value : ν) (old : Option ν)
      (nonzero : Observable.capacity store ≠ 0) :
      Interleaved
        { before := store, request := .insert key value,
          reply := .flag (Observable.peek left key).isSome,
          moves := Move.departure (Observable.departing store key) ++
            [.called (.insert key value) (Observable.afterFind store) old left] ++
            Move.arrival key (Observable.peek left key),
          after := Observable.afterPeek left }
  | erased (store left : σ) (key : κ) (removed : Option ν) :
      Interleaved
        { before := store, request := .erase key, reply := .flag removed.isSome,
          moves := [.called (.erase key) store removed left] ++
            Move.departure (removed.map fun value => (key, value)),
          after := left }
  | got (store left : σ) (key : κ) (value : Option ν) :
      Interleaved
        { before := store, request := .get key, reply := .value value,
          moves := [.called (.get key) store value left], after := left }
  | cleared (store left : σ) :
      Interleaved
        { before := store, request := .clear, reply := .done,
          moves := [.called .clear store none left], after := left }
  | found (store : σ) (key : κ) :
      Interleaved
        { before := store, request := .find key, reply := .flag (Observable.find store key),
          moves := [], after := Observable.afterFind store }
  | peeked (store : σ) (key : κ) :
      Interleaved
        { before := store, request := .peek key, reply := .value (Observable.peek store key),
          moves := [], after := Observable.afterPeek store }
  | asked (store : σ) (request : Request κ ν) (reply : Reply κ ν)
      (answered : (request, reply) ∈
        [(.nextErasure, .entry (Observable.nextErasure store)),
          (.size, .count (Observable.size store)),
          (.capacity, .count (Observable.capacity store)),
          (.isEmpty, .flag (Observable.isEmpty store)),
          (.isFull, .flag (Observable.isFull store))]) :
      Interleaved { before := store, request, reply, moves := [], after := store }

/-- The request is handed on to the store under its own name. -/
def reaches (exchange : Exchange σ κ ν) : Bool :=
  match exchange.request with
  | .insert _ _ => Observable.capacity exchange.before != 0
  | .get _ | .erase _ | .clear => true
  | _ => false

/-- Each exchange meets the store that the one before has left. -/
def Chained : σ → List (Exchange σ κ ν) → σ → Prop
  | store, [], last => last = store
  | store, exchange :: rest, last => exchange.before = store ∧ Chained exchange.after rest last

/-- An exchange calls the operation that was asked for, or none. -/
theorem Interleaved.operations {exchange : Exchange σ κ ν} (interleaved : exchange.Interleaved) :
    exchange.moves.filterMap Move.operation? =
      if exchange.reaches then [exchange.request] else [] := by
  cases interleaved with
  | refused store key value zero => simp [reaches, zero]
  | inserted store left key value old nonzero => simp [reaches, nonzero, Move.operation?]
  | erased store left key removed => simp [reaches, Move.operation?]
  | got store left key value => rfl
  | cleared store left => rfl
  | found store key => rfl
  | peeked store key => rfl
  | asked store request reply answered =>
      simp only [List.mem_cons, Prod.mk.injEq, List.not_mem_nil, or_false] at answered
      rcases answered with ⟨rfl, _⟩ | ⟨rfl, _⟩ | ⟨rfl, _⟩ | ⟨rfl, _⟩ | ⟨rfl, _⟩ <;> rfl

/-- Over a run the operations that are called are those that were asked for by name. -/
theorem operations_eq {exchanges : List (Exchange σ κ ν)}
    (interleaved : ∀ exchange ∈ exchanges, exchange.Interleaved) :
    (exchanges.flatMap Exchange.moves).filterMap Move.operation? =
      (exchanges.filter Exchange.reaches).map Exchange.request := by
  induction exchanges with
  | nil => rfl
  | cons exchange rest inductionHypothesis =>
      obtain ⟨first, others⟩ := List.forall_mem_cons.mp interleaved
      rw [List.flatMap_cons, List.filterMap_append, first.operations, inductionHypothesis others,
        List.filter_cons]
      cases exchange.reaches <;> rfl

end Exchange

namespace EvictingCache

/-- The entry that is named is announced, if the store is full and names one. -/
theorem traces_announceEviction (cache : EvictingCache ω σ κ ν) (around : Surroundings ω) :
    Act.Traces cache.announceEviction cache.traced.announceEviction id around
      (Move.departure (if cache.isFull then Observable.nextErasure cache.store else none)) := by
  have asked : cache.traced.isFull = cache.isFull := rfl
  have named : Observable.nextErasure cache.traced.store =
      Observable.nextErasure cache.store := rfl
  rw [announceEviction, announceEviction, asked, named]
  cases cache.isFull with
  | false => exact .silent fun _ => rfl
  | true =>
      cases Observable.nextErasure cache.store with
      | none => exact .silent fun _ => rfl
      | some victim => exact fun _ => rfl

/-- What the store shows under the key is announced, if it shows anything. -/
theorem traces_announceArrival (cache : EvictingCache ω σ κ ν) (key : κ)
    (around : Surroundings ω) :
    Act.Traces (cache.announceArrival key) (cache.traced.announceArrival key) answerTraced around
      (Move.arrival key (Observable.peek cache.store key)) := by
  have shown : cache.traced.peek key =
      (Observable.peek cache.store key,
        EvictingCache.traced { cache with store := Observable.afterPeek cache.store }) := rfl
  rw [announceArrival, announceArrival, shown, peek]
  cases Observable.peek cache.store key with
  | none => exact .silent fun _ => rfl
  | some stored => exact fun _ => rfl

omit [Observable σ κ ν] in
/-- An operation that may change the store is one call. -/
theorem traces_changeStore (cache : EvictingCache ω σ κ ν) (operation : Request κ ν)
    (action : σ → StateM ω (Option ν × σ)) (around : Surroundings ω) :
    let outcome := ((action cache.store).run around.outside).1
    Act.Traces (cache.changeStore action)
      (cache.traced.changeStore (Recorded.tracedCall · operation action)) answerTraced around
      [.called operation cache.store outcome.1 outcome.2] := fun _ => rfl

variable [Store (StateM ω) σ κ ν]

/-- What the store shows after it was called is announced, and decides about the reply. -/
theorem exists_traces_write (cache : EvictingCache ω σ κ ν) (key : κ) (value : ν)
    (around : Surroundings ω) :
    ∃ old left,
      ((cache.write key value).run around).1 =
          ((Observable.peek left key).isSome,
            { cache with store := Observable.afterPeek left }) ∧
        Act.Traces (cache.write key value) (cache.traced.write key value) answerTraced around
          ([.called (.insert key value) cache.store old left] ++
            Move.arrival key (Observable.peek left key)) := by
  have called := cache.traces_changeStore (.insert key value) (Store.insert · key value) around
  refine ⟨_, _, ?_, .bind called (traces_announceArrival _ key _)⟩
  rw [write, Act.run_bind]
  exact fst_run_announceArrival key _

/-- An insertion with capacity announces what is about to leave, calls the store, and announces
what the store then shows. -/
theorem exists_traces_insert (observing : Observable.FindObserves σ)
    {cache : EvictingCache ω σ κ ν} (nonzero : cache.capacity ≠ 0) (key : κ) (value : ν)
    (around : Surroundings ω) :
    ∃ old left,
      ((cache.insert key value).run around).1 =
          ((Observable.peek left key).isSome,
            { cache with store := Observable.afterPeek left }) ∧
        Act.Traces (cache.insert key value) (cache.traced.insert key value) answerTraced around
          (Move.departure (Observable.departing cache.store key) ++
            [.called (.insert key value) (Observable.afterFind cache.store) old left] ++
            Move.arrival key (Observable.peek left key)) := by
  let noted : EvictingCache ω σ κ ν := { cache with store := Observable.afterFind cache.store }
  have nonzeroTraced : cache.traced.capacity ≠ 0 := nonzero
  have asked : Observable.find cache.traced.store key = Observable.find cache.store key := rfl
  rw [insert_of_capacity_ne_zero nonzero, insert_of_capacity_ne_zero nonzeroTraced, asked,
    Observable.departing]
  cases Observable.find cache.store key with
  | true => exact exists_traces_write noted key value around
  | false =>
      have announced := noted.traces_announceEviction around
      obtain ⟨old, left, outcome, traces⟩ :=
        exists_traces_write noted key value (noted.announceEviction.run around).2
      rw [isFull, observing.isFull_eq, observing.nextErasure_eq] at announced
      refine ⟨old, left, outcome, ?_⟩
      rw [List.append_assoc]
      exact .bind announced traces

/-- What the store gives back is announced, and decides about the reply. -/
theorem exists_traces_erase (cache : EvictingCache ω σ κ ν) (key : κ) (around : Surroundings ω) :
    ∃ removed left,
      ((cache.erase key).run around).1 = (removed.isSome, { cache with store := left }) ∧
        Act.Traces (cache.erase key) (cache.traced.erase key) answerTraced around
          ([.called (.erase key) cache.store removed left] ++
            Move.departure (removed.map fun value => (key, value))) := by
  have called := cache.traces_changeStore (.erase key) (Store.erase · key) around
  obtain ⟨⟨⟨removed, left⟩, outside⟩, erased⟩ :
      ∃ outcome, (Store.erase cache.store key : StateM ω (Option ν × σ)).run around.outside =
        outcome := ⟨_, rfl⟩
  rw [erased] at called
  have changed : (cache.changeStore (Store.erase · key)).run around =
      ((removed, { cache with store := left }), { around with outside }) := by
    rw [changeStore, Act.run_bind, Act.run_call, erased]
    rfl
  refine ⟨removed, left, ?_, .bind called ?_⟩
  · rw [erase, Act.run_bind, changed]
    cases removed <;> rfl
  · rw [changed]
    cases removed with
    | none => exact .silent fun _ => rfl
    | some value => exact fun _ => rfl

/-- A request to a cache is an exchange, and a traced cache makes the moves of the exchange. -/
theorem exists_exchange (observing : Observable.FindObserves σ) (cache : EvictingCache ω σ κ ν)
    (request : Request κ ν) (around : Surroundings ω) :
    ∃ exchange : Exchange σ κ ν, exchange.before = cache.store ∧ exchange.request = request ∧
      exchange.Interleaved ∧
      ((cache.perform request).run around).1 =
        (exchange.reply, { cache with store := exchange.after }) ∧
      Act.Traces (cache.perform request) (cache.traced.perform request) answerTraced around
        exchange.moves := by
  cases request with
  | insert key value =>
      by_cases zero : cache.capacity = 0
      · have zeroTraced : cache.traced.capacity = 0 := zero
        have refused := run_perform_insert_of_capacity_eq_zero zero key value around
        refine ⟨_, rfl, rfl, .refused cache.store key value zero, congrArg Prod.fst refused, ?_⟩
        apply Act.Traces.silent
        intro earlier
        rw [refused, run_perform_insert_of_capacity_eq_zero zeroTraced]
        rfl
      · obtain ⟨old, left, outcome, traces⟩ :=
          exists_traces_insert observing zero key value around
        refine ⟨_, rfl, rfl, .inserted cache.store left key value old zero, ?_,
          traces.answer fun stored => (.flag stored : Reply κ ν)⟩
        rw [perform, Act.run_bind, outcome]
        rfl
  | erase key =>
      obtain ⟨removed, left, outcome, traces⟩ := exists_traces_erase cache key around
      refine ⟨_, rfl, rfl, .erased cache.store left key removed, ?_,
        traces.answer fun removed => (.flag removed : Reply κ ν)⟩
      rw [perform, Act.run_bind, outcome]
      rfl
  | get key =>
      have called := cache.traces_changeStore (.get key) (Store.get · key) around
      exact ⟨_, rfl, rfl, .got cache.store _ key _, rfl,
        called.answer fun value => (.value value : Reply κ ν)⟩
  | clear =>
      let left := ((Store.clear cache.store : StateM ω σ).run around.outside).1
      exact ⟨_, rfl, rfl, .cleared cache.store left, rfl, fun _ => rfl⟩
  | find key =>
      exact ⟨_, rfl, rfl, .found cache.store key, rfl, .silent fun _ => rfl⟩
  | peek key =>
      exact ⟨_, rfl, rfl, .peeked cache.store key, rfl, .silent fun _ => rfl⟩
  | nextErasure =>
      have answered := Exchange.Interleaved.asked cache.store .nextErasure
        (.entry (Observable.nextErasure cache.store)) (by simp)
      exact ⟨_, rfl, rfl, answered, rfl, .silent fun _ => rfl⟩
  | size =>
      have answered := Exchange.Interleaved.asked cache.store .size
        (.count (Observable.size cache.store)) (by simp)
      exact ⟨_, rfl, rfl, answered, rfl, .silent fun _ => rfl⟩
  | capacity =>
      have answered := Exchange.Interleaved.asked cache.store .capacity
        (.count (Observable.capacity cache.store)) (by simp)
      exact ⟨_, rfl, rfl, answered, rfl, .silent fun _ => rfl⟩
  | isEmpty =>
      have answered := Exchange.Interleaved.asked cache.store .isEmpty
        (.flag (Observable.isEmpty cache.store)) (by simp)
      exact ⟨_, rfl, rfl, answered, rfl, .silent fun _ => rfl⟩
  | isFull =>
      have answered := Exchange.Interleaved.asked cache.store .isFull
        (.flag (Observable.isFull cache.store)) (by simp)
      exact ⟨_, rfl, rfl, answered, rfl, .silent fun _ => rfl⟩

/-! ## A run -/

/-- The exchanges of a run follow one another, and a traced cache makes their moves in order. -/
theorem exists_exchanges (observing : Observable.FindObserves σ) (cache : EvictingCache ω σ κ ν)
    (requests : List (Request κ ν)) (around : Surroundings ω) :
    ∃ (exchanges : List (Exchange σ κ ν)) (last : σ),
      exchanges.map Exchange.request = requests ∧
      Exchange.Chained cache.store exchanges last ∧
      (∀ exchange ∈ exchanges, exchange.Interleaved) ∧
      ((cache.run requests).run around).1 =
        (exchanges.map Exchange.reply, { cache with store := last }) ∧
      Act.Traces (cache.run requests) (cache.traced.run requests) answerTraced around
        (exchanges.flatMap Exchange.moves) := by
  induction requests generalizing cache around with
  | nil =>
      refine ⟨[], cache.store, rfl, rfl, ?_, rfl, .silent fun _ => rfl⟩
      exact fun exchange none => nomatch none
  | cons request rest inductionHypothesis =>
      obtain ⟨exchange, before, asked, interleaved, outcome, traces⟩ :=
        exists_exchange observing cache request around
      obtain ⟨exchanges, last, requested, chained, all, outcomes, goesOn⟩ :=
        inductionHypothesis { cache with store := exchange.after }
          ((cache.perform request).run around).2
      refine ⟨exchange :: exchanges, last, ?_, ⟨before, chained⟩, ?_, ?_, ?_⟩
      · rw [List.map_cons, asked, requested]
      · exact List.forall_mem_cons.mpr ⟨interleaved, all⟩
      · rw [run, Act.run_bind, outcome, Act.run_bind, outcomes]
        rfl
      · rw [List.flatMap_cons]
        apply Act.Traces.bind traces
        rw [outcome]
        exact goesOn.answer fun replies => exchange.reply :: replies

/-- What a cache does with any store whatsoever and any callbacks. A run falls into exchanges,
one for each request, and each exchange meets the store that the one before has left. Tracing
changes nothing: the traced run has the replies of the plain one, and leaves the same store,
outside state and journal. The trace has the moves of the exchanges in order, and in each they
are interleaved as `Exchange.Interleaved` says. The calls that reach the store are those of the
requests of the same names, in the same order, except that without capacity no insertion is
handed on. -/
theorem interplay (observing : Observable.FindObserves σ) (cache : EvictingCache ω σ κ ν)
    (requests : List (Request κ ν)) (around : Surroundings ω) :
    ∃ (exchanges : List (Exchange σ κ ν)) (last : σ) (later : Surroundings ω),
      exchanges.map Exchange.request = requests ∧
      (cache.run requests).run around =
        ((exchanges.map Exchange.reply, { cache with store := last }), later) ∧
      (cache.traced.run requests).run (around.traced []) =
        ((exchanges.map Exchange.reply, EvictingCache.traced { cache with store := last }),
          later.traced (exchanges.flatMap Exchange.moves)) ∧
      Exchange.Chained cache.store exchanges last ∧
      (∀ exchange ∈ exchanges, exchange.Interleaved) ∧
      (exchanges.flatMap Exchange.moves).filterMap Move.operation? =
        (exchanges.filter Exchange.reaches).map Exchange.request := by
  obtain ⟨exchanges, last, requested, chained, interleaved, outcome, traces⟩ :=
    exists_exchanges observing cache requests around
  refine ⟨exchanges, last, ((cache.run requests).run around).2, requested,
    Prod.ext outcome rfl, ?_, chained, interleaved, Exchange.operations_eq interleaved⟩
  rw [traces [], outcome]
  rfl

end EvictingCache

/-- A store of one entry that keeps it whatever happens. It names the entry as the next to
leave, refuses what is written, and gives back on erasure what it does not let go. -/
structure Stubborn where
  entry : Char × Nat

namespace Stubborn

instance : Observable Stubborn Char Nat where
  capacity _ := 1
  size _ := 1
  find store key := key == store.entry.1
  peek store key := if key == store.entry.1 then some store.entry.2 else none
  nextErasure store := some store.entry

instance : Store (StateM Unit) Stubborn Char Nat where
  get store key := pure (Observable.peek store key, store)
  insert store _ _ := pure (none, store)
  erase store key := pure (Observable.peek store key, store)
  clear store := pure store

/-- The departure of the entry is announced although it stays, its rival is refused without an
arrival, and a new value of its own key is announced as the old one that is still stored. -/
theorem interplay_of_refusal :
    Observable.FindObserves Stubborn ∧
      ∃ exchanges : List (Exchange Stubborn Char Nat),
        exchanges.map Exchange.reply = [.flag false, .flag true, .flag true] ∧
        (∀ exchange ∈ exchanges, exchange.Interleaved) ∧
        exchanges.flatMap Exchange.moves =
          [.announced (.departure 'a' 1), .called (.insert 'b' 2) ⟨('a', 1)⟩ none ⟨('a', 1)⟩,
            .called (.insert 'a' 3) ⟨('a', 1)⟩ none ⟨('a', 1)⟩, .announced (.arrival 'a' 1),
            .called (.erase 'a') ⟨('a', 1)⟩ (some 1) ⟨('a', 1)⟩,
            .announced (.departure 'a' 1)] := by
  have observing : Observable.FindObserves Stubborn := ⟨fun _ => rfl, fun _ => rfl⟩
  let cache : EvictingCache Unit Stubborn Char Nat :=
    { store := ⟨('a', 1)⟩, callbacks := { onInsert _ _ := pure (), onEvict _ _ := pure () } }
  obtain ⟨exchanges, last, later, -, outcome, traced, -, interleaved, -⟩ :=
    EvictingCache.interplay observing cache [.insert 'b' 2, .insert 'a' 3, .erase 'a']
      { outside := () }
  refine ⟨observing, exchanges, ?_, interleaved, ?_⟩
  · exact (congrArg (fun outcome => outcome.1.1) outcome).symm
  · exact (congrArg (fun outcome => outcome.2.outside.2) traced).symm

end Stubborn

end GraphsAndCaches
