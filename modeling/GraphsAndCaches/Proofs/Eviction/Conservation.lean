import GraphsAndCaches.Proofs.Eviction.Accounts
import Mathlib.Algebra.GroupWithZero.Nat

/-!
# The counters of a store balance

Entries come into a store by insertions of new keys and leave it by four doors: they are
driven out by a new key, erased, popped, or dropped when the store is cleared. A store counts
what comes in, what is driven out and what is erased, and whoever watches a run sees the rest.
At every moment of a run what came in is what left or is still there.

The other counters are the numbers of the commands that they are named after. Some commands
are not counted at all: what only looks at the order of the entries, what moves a key without
reading it, and what pops an entry.
-/

namespace GraphsAndCaches.BoundedStore

variable {policy : Policy} {κ ν : Type} [DecidableEq κ] [Hashable κ]

/-! ## Moments of a run -/

/-- A command of a run with its reply, and the store before and after it. -/
structure Moment (policy : Policy) (κ ν : Type) [DecidableEq κ] [Hashable κ] where
  before : BoundedStore policy κ ν
  command : Command κ ν
  reply : Reply κ ν
  after : BoundedStore policy κ ν

/-- The moment at which a store carries out a command. -/
def moment (store : BoundedStore policy κ ν) (command : Command κ ν) : Moment policy κ ν where
  before := store
  command := command
  reply := (store.perform command).1
  after := (store.perform command).2

/-- The moments of a run of commands. -/
def moments (store : BoundedStore policy κ ν) : List (Command κ ν) → List (Moment policy κ ν)
  | [] => []
  | command :: rest => store.moment command :: (store.perform command).2.moments rest

/-- Whether a command changes a counter, which is so whatever the store is like, except that
an insertion may be refused. -/
def Command.isCounted : Command κ ν → Bool
  | .request (.insert ..) | .request (.get _) | .request (.peek _) | .request (.find _) |
    .request (.erase _) | .request .clear => true
  | _ => false

namespace Moment

/-- A new key meets a full store, which has room for some entry. -/
def overflows (moment : Moment policy κ ν) : Bool :=
  match moment.command with
  | .request (.insert key _) =>
      !moment.before.contains key && moment.before.isFull && decide (0 < moment.before.capacity)
  | _ => false

/-- An entry is popped. -/
def pops (moment : Moment policy κ ν) : Bool :=
  match moment.command, moment.reply with
  | .popOldest, .entry (some _) => true
  | _, _ => false

/-- An entry is erased. -/
def removes (moment : Moment policy κ ν) : Bool :=
  match moment.command, moment.reply with
  | .request (.erase _), .value (some _) => true
  | _, _ => false

/-- The number of the entries that are dropped when the store is cleared. -/
def dropped (moment : Moment policy κ ν) : Nat :=
  match moment.command with
  | .request .clear => moment.before.size
  | _ => 0

end Moment

/-- The counters of a store agree with the moments that led to it. -/
structure Conserved (capacity : Nat) (moments : List (Moment policy κ ν))
    (store : BoundedStore policy κ ν) : Prop where
  /-- What came in is still there or left by one of four doors. -/
  entered : store.counters.insertNew =
    store.size + store.counters.evictions + store.counters.eraseFound +
      moments.countP Moment.pops + (moments.map Moment.dropped).sum
  evictions : store.counters.evictions = moments.countP Moment.overflows
  removed : store.counters.eraseFound = moments.countP Moment.removes
  inserts : 0 < capacity → store.counters.insertNew + store.counters.insertUpdates =
    moments.countP (·.command matches .request (.insert ..))
  /-- What is refused is not counted. -/
  refused : capacity = 0 → store.counters.insertNew + store.counters.insertUpdates = 0
  calls : store.snapshot.getCalls = store.counters.getHits + store.counters.getMisses
  gets : store.snapshot.getCalls = moments.countP (·.command matches .request (.get _))
  peeks : store.counters.peekCalls = moments.countP (·.command matches .request (.peek _))
  finds : store.counters.findCalls = moments.countP (·.command matches .request (.find _))
  erases : store.counters.eraseCalls = moments.countP (·.command matches .request (.erase _))
  clears : store.counters.clears = moments.countP (·.command matches .request .clear)

/-! ## One moment -/

/-- What a command makes a store with these entries count. -/
def Command.events (capacity : Nat) (entries : Lineup κ ν) :
    Command κ ν → List Counters.Event
  | .request asked => entries.events capacity asked
  | _ => []

/-- The events that are counted at a moment are those that happen at it. -/
structure Moment.Counts (capacity : Nat) (moment : Moment policy κ ν)
    (events : List Counters.Event) : Prop where
  entered : moment.before.size + events.count .insertNew =
    moment.after.size + events.count .eviction + events.count (.erase true) +
      moment.pops.toNat + moment.dropped
  evictions : events.count .eviction = moment.overflows.toNat
  removed : events.count (.erase true) = moment.removes.toNat
  inserts : 0 < capacity → events.count .insertNew + events.count .insertUpdate =
    (moment.command matches .request (.insert ..)).toNat
  refused : capacity = 0 → events.count .insertNew + events.count .insertUpdate = 0
  gets : events.count .getHit + events.count .getMiss =
    (moment.command matches .request (.get _)).toNat
  peeks : events.count .peek = (moment.command matches .request (.peek _)).toNat
  finds : events.count .find = (moment.command matches .request (.find _)).toNat
  erases : events.countP (· matches .erase _) =
    (moment.command matches .request (.erase _)).toNat
  clears : events.count .clear = (moment.command matches .request .clear).toNat

/-- A command that is not counted leaves the counters as they are. -/
theorem counters_perform_of_not_isCounted (store : BoundedStore policy κ ν)
    {command : Command κ ν} (uncounted : command.isCounted = false) :
    (store.perform command).2.counters = store.counters := by
  cases command with
  | request request =>
      cases request with
      | insert | get | peek | find | erase | clear => cases uncounted
      | nextErasure | size | capacity | isEmpty | isFull => rfl
  | touch key => exact counters_touch store key
  | check =>
      rw [perform]
      split <;> rfl
  | read | rank | oldest | popOldest | entries => rfl

/-- Nothing happens at a moment when nothing is counted and no entry is popped. -/
theorem Moment.Counts.nothing {capacity : Nat} {moment : Moment policy κ ν}
    (size : moment.before.size = moment.after.size)
    (uncounted : moment.command.isCounted = false) (unpopped : moment.pops = false) :
    moment.Counts capacity [] := by
  obtain ⟨before, command, reply, after⟩ := moment
  have entered : before.size = after.size + false.toNat := size
  rw [← unpopped] at entered
  cases command with
  | request request =>
      cases request with
      | insert | get | peek | find | erase | clear => cases uncounted
      | nextErasure | size | capacity | isEmpty | isFull =>
          constructor
          case entered => exact entered
          case inserts | refused => exact fun _ => rfl
          all_goals rfl
  | _ =>
      constructor
      case entered => exact entered
      case inserts | refused => exact fun _ => rfl
      all_goals rfl

namespace Holds

variable {store : BoundedStore policy κ ν} {capacity : Nat} {entries : Lineup κ ν}
variable (holds : store.Holds capacity entries)
include holds

/-- A new key overflows a store when there is a victim for it. -/
theorem overflows_eq (key : κ) (value : ν) :
    (store.moment (.request (.insert key value))).overflows =
      (!(entries.lookup key).isSome && (entries.victim capacity).isSome) := by
  change (!store.contains key && store.isFull && decide (0 < store.capacity)) = _
  rw [holds.contains_eq, holds.isFull_eq, holds.capacity_eq, Bool.and_assoc]
  refine congrArg _ (Bool.eq_iff_iff.mpr ?_)
  simp [Lineup.isSome_victim_iff]

/-- A key that is inserted has its value written over, or is refused, or comes in, and then
another entry may leave. -/
theorem counts_insert (key : κ) (value : ν) :
    (store.moment (.request (.insert key value))).Counts capacity
      (entries.events capacity (.insert key value)) := by
  have size := (holds.insert key value).2.size_eq
  have overflows := holds.overflows_eq key value
  rw [Lineup.inserted] at size
  rw [Lineup.events]
  cases found : entries.lookup key with
  | some old =>
      rw [found, if_pos Option.isSome_some, Lineup.length_written,
        Lineup.length_used policy holds.roster.distinct] at size
      rw [found] at overflows
      have occupied : capacity ≠ 0 := by
        rintro rfl
        rw [List.eq_nil_of_length_eq_zero (Nat.le_zero.mp holds.fits)] at found
        cases found
      constructor
      case entered => exact holds.size_eq.trans size.symm
      case evictions => exact congrArg Bool.toNat overflows.symm
      case inserts => exact fun _ => rfl
      case refused => exact fun zero => absurd zero occupied
      all_goals rfl
  | none =>
      rw [found, Option.isSome_none, if_neg Bool.false_ne_true] at size
      rw [found] at overflows
      rw [Option.isSome_none, if_neg Bool.false_ne_true]
      by_cases zero : capacity = 0
      · have unoccupied : (entries.victim capacity).isSome = false := by
          rw [← Bool.not_eq_true, Lineup.isSome_victim_iff]
          omega
        rw [if_pos zero] at size ⊢
        rw [unoccupied] at overflows
        constructor
        case entered => exact holds.size_eq.trans size.symm
        case evictions => exact congrArg Bool.toNat overflows.symm
        case inserts => exact fun positive => absurd zero (Nat.ne_of_gt positive)
        case refused => exact fun _ => rfl
        all_goals rfl
      · rw [if_neg zero] at size ⊢
        have entered : store.size + 1 =
            (store.insert key value).2.size + (entries.victim capacity).isSome.toNat := by
          have room := Lineup.length_makeRoom_add capacity entries
          rw [size, holds.size_eq, List.length_cons]
          omega
        cases leaves : entries.victim capacity
        all_goals
          rw [leaves] at overflows entered
          constructor
          case entered => exact entered
          case evictions => exact congrArg Bool.toNat overflows.symm
          case inserts => exact fun _ => rfl
          case refused => exact fun refusing => absurd refusing zero
          all_goals rfl

/-- A use of a key takes nothing away. -/
theorem counts_get (key : κ) :
    (store.moment (.request (.get key))).Counts capacity
      (entries.events capacity (.get key)) := by
  have size := (holds.get key).2.size_eq
  rw [Lineup.length_used policy holds.roster.distinct] at size
  rw [Lineup.events]
  cases (entries.lookup key).isSome
  all_goals
    constructor
    case entered => exact holds.size_eq.trans size.symm
    case inserts | refused => exact fun _ => rfl
    all_goals rfl

/-- An entry that is erased is seen in the reply. -/
theorem counts_erase (key : κ) :
    (store.moment (.request (.erase key))).Counts capacity
      (entries.events capacity (.erase key)) := by
  obtain ⟨erased, remaining⟩ := holds.erase key
  have size := Lineup.length_without_add holds.roster.distinct key
  rw [← remaining.size_eq, ← holds.size_eq] at size
  have removes : (store.moment (.request (.erase key))).removes =
      (entries.lookup key).isSome := by
    change Moment.removes ⟨store, _, .value (store.erase key).1, (store.erase key).2⟩ = _
    rw [erased]
    cases entries.lookup key <;> rfl
  rw [Lineup.events]
  cases found : entries.lookup key
  all_goals
    rw [found] at size removes
    constructor
    case entered => exact size.symm
    case removed => exact congrArg Bool.toNat removes.symm
    case inserts | refused => exact fun _ => rfl
    all_goals rfl

/-- So is an entry that is popped. -/
theorem counts_popOldest : (store.moment .popOldest).Counts capacity [] := by
  obtain ⟨popped, remaining⟩ := holds.popOldest
  have size := Lineup.length_dropLast_add entries
  rw [← remaining.size_eq, ← holds.size_eq] at size
  have pops : (store.moment .popOldest).pops = entries.getLast?.isSome := by
    change Moment.pops ⟨store, _, .entry store.popOldest.1, store.popOldest.2⟩ = _
    rw [popped]
    cases entries.getLast? <;> rfl
  constructor
  case entered =>
    rw [pops]
    exact size.symm
  case inserts | refused => exact fun _ => rfl
  all_goals rfl

theorem counts (command : Command κ ν) :
    (store.moment command).Counts capacity (command.events capacity entries) := by
  cases command with
  | request request =>
      cases request with
      | insert key value => exact holds.counts_insert key value
      | get key => exact holds.counts_get key
      | erase key => exact holds.counts_erase key
      | peek | find =>
          constructor
          case inserts | refused => exact fun _ => rfl
          all_goals rfl
      | clear =>
          constructor
          case entered =>
            change store.size = store.clear.size + store.size
            rw [holds.clear.size_eq, List.length_nil, Nat.zero_add]
          case inserts | refused => exact fun _ => rfl
          all_goals rfl
      | nextErasure | size | capacity | isEmpty | isFull => exact .nothing rfl rfl rfl
  | popOldest => exact holds.counts_popOldest
  | touch key =>
      have size := (holds.touch key).2.size_eq
      rw [Lineup.length_used policy holds.roster.distinct] at size
      exact .nothing (holds.size_eq.trans size.symm) rfl rfl
  | check =>
      have same : (store.perform .check).2 = store := by
        rw [BoundedStore.perform, holds.check_eq]
      exact .nothing (congrArg size same).symm rfl rfl
  | read | rank | oldest | entries => exact .nothing rfl rfl rfl

/-- What a command makes the store count is decided by the entries. -/
theorem counters_perform (command : Command κ ν) :
    (store.perform command).2.counters =
      store.counters.recordAll (command.events capacity entries) := by
  cases command with
  | request request => exact tallies policy capacity holds request
  | _ => exact counters_perform_of_not_isCounted store rfl

end Holds

/-! ## A run -/

theorem countP_concat {α : Type} (test : α → Bool) (items : List α) (item : α) :
    (items ++ [item]).countP test = items.countP test + (test item).toNat := by
  rw [List.countP_append, List.countP_singleton]
  cases test item <;> rfl

namespace Conserved

variable {capacity : Nat} {past : List (Moment policy κ ν)}

/-- In a store that was not used yet there is nothing to agree on. -/
theorem fresh (capacity : Nat) :
    Conserved capacity [] (ofCapacity capacity : BoundedStore policy κ ν) := by
  constructor
  case inserts | refused => exact fun _ => rfl
  all_goals rfl

/-- The counters still agree after one more moment. -/
theorem concat {moment : Moment policy κ ν} {events : List Counters.Event}
    (conserved : Conserved capacity past moment.before) (counts : moment.Counts capacity events)
    (counted : moment.after.counters = moment.before.counters.recordAll events) :
    Conserved capacity (past ++ [moment]) moment.after := by
  rw [Counters.recordAll_eq] at counted
  constructor
  case calls => rfl
  case gets =>
    have before := conserved.gets
    rw [conserved.calls] at before
    rw [countP_concat, ← before, ← counts.gets]
    change moment.after.counters.getHits + moment.after.counters.getMisses = _
    rw [counted]
    dsimp only
    omega
  all_goals
    rw [counted]
    dsimp only
  case entered =>
    have before := conserved.entered
    have now := counts.entered
    rw [countP_concat, List.map_append, List.sum_append, List.map_singleton, List.sum_singleton]
    omega
  case evictions => rw [countP_concat, ← conserved.evictions, counts.evictions]
  case removed => rw [countP_concat, ← conserved.removed, counts.removed]
  case inserts =>
    intro positive
    rw [countP_concat, ← conserved.inserts positive, ← counts.inserts positive]
    omega
  case refused =>
    intro zero
    have before := conserved.refused zero
    have now := counts.refused zero
    omega
  case peeks => rw [countP_concat, ← conserved.peeks, counts.peeks]
  case finds => rw [countP_concat, ← conserved.finds, counts.finds]
  case erases =>
    rw [countP_concat, ← conserved.erases]
    exact congrArg (moment.before.counters.eraseCalls + ·) counts.erases
  case clears => rw [countP_concat, ← conserved.clears, counts.clears]

/-- They agree along a run, by induction on the commands that are still to come. -/
theorem run {store : BoundedStore policy κ ν} {entries : Lineup κ ν}
    (holds : store.Holds capacity entries) (conserved : Conserved capacity past store)
    (commands : List (Command κ ν)) :
    Conserved capacity (past ++ store.moments commands) (store.run commands).2 := by
  induction commands generalizing store entries past with
  | nil =>
      rw [moments, List.append_nil]
      exact conserved
  | cons command rest inductionHypothesis =>
      have next : Conserved capacity (past ++ [store.moment command]) (store.perform command).2 :=
        conserved.concat (holds.counts command) (holds.counters_perform command)
      have later := inductionHypothesis (holds.perform command).2 next
      rw [List.append_assoc, List.singleton_append] at later
      exact later

/-- No number that is shown exceeds the number of moments. -/
theorem le_length {store : BoundedStore policy κ ν} (conserved : Conserved capacity past store) :
    ∀ count ∈ store.snapshot.getCalls :: store.counters.values, count ≤ past.length := by
  have within {count : Nat} {test : Moment policy κ ν → Bool}
      (counted : count = past.countP test) : count ≤ past.length :=
    counted ▸ List.countP_le_length
  have inserts : store.counters.insertNew + store.counters.insertUpdates ≤ past.length := by
    obtain zero | positive := Nat.eq_zero_or_pos capacity
    · exact conserved.refused zero ▸ Nat.zero_le _
    · exact within (conserved.inserts positive)
  have gets : store.counters.getHits + store.counters.getMisses ≤ past.length :=
    conserved.calls ▸ within conserved.gets
  simp only [Counters.values, List.forall_mem_cons]
  exact ⟨gets, by omega, by omega, by omega, by omega, within conserved.evictions,
    within conserved.erases, within conserved.removed, within conserved.clears,
    within conserved.finds, within conserved.peeks, List.forall_mem_nil _⟩

end Conserved

/-- The moments of a run are its commands with their replies, one after the other. -/
theorem map_moments (store : BoundedStore policy κ ν) (commands : List (Command κ ν)) :
    (store.moments commands).map Moment.command = commands ∧
      (store.moments commands).map Moment.reply = (store.run commands).1 := by
  induction commands generalizing store with
  | nil => exact ⟨rfl, rfl⟩
  | cons command rest inductionHypothesis =>
      obtain ⟨asked, replied⟩ := inductionHypothesis (store.perform command).2
      exact ⟨congrArg (command :: ·) asked, congrArg ((store.perform command).1 :: ·) replied⟩

/-- At each of them a store carries out the command. -/
theorem eq_moment_of_mem_moments {store : BoundedStore policy κ ν} {commands : List (Command κ ν)}
    {moment : Moment policy κ ν} (member : moment ∈ store.moments commands) :
    moment = moment.before.moment moment.command := by
  induction commands generalizing store with
  | nil => cases member
  | cons command rest inductionHypothesis =>
      obtain rfl | member := List.mem_cons.mp member
      · rfl
      · exact inductionHypothesis member

/-- Whatever is asked of a fresh store of either policy, its counters agree with the moments of
the run. They did so after every command, as the list of commands is arbitrary. A command that
is not counted changes no counter, and no number that is shown exceeds that of the commands. -/
theorem counters_conserved (policy : Policy) (capacity : Nat) (commands : List (Command κ ν)) :
    let start := (ofCapacity capacity : BoundedStore policy κ ν)
    let moments := start.moments commands
    let final := (start.run commands).2
    Conserved capacity moments final ∧
      (moments.map Moment.command = commands ∧
        moments.map Moment.reply = (start.run commands).1) ∧
      (∀ moment ∈ moments, moment.after = (moment.before.perform moment.command).2 ∧
        (moment.command.isCounted = false → moment.after.counters = moment.before.counters)) ∧
      ∀ count ∈ final.snapshot.getCalls :: final.counters.values, count ≤ commands.length := by
  intro start moments final
  have conserved : Conserved capacity moments final :=
    (Conserved.fresh capacity).run (holds_ofCapacity capacity) commands
  obtain ⟨asked, replied⟩ := map_moments start commands
  have few := conserved.le_length
  rw [← List.length_map (f := Moment.command), asked] at few
  refine ⟨conserved, ⟨asked, replied⟩, fun moment member => ?_, few⟩
  rw [eq_moment_of_mem_moments member]
  exact ⟨rfl, counters_perform_of_not_isCounted moment.before⟩

end GraphsAndCaches.BoundedStore
