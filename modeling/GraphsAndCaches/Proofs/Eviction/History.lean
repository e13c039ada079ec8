import GraphsAndCaches.Proofs.Eviction.BoundedStore

/-!
# Histories of runs

What a command means often depends on the keys that are resident when it comes: a `get`
is a use of its key when it finds it, and an insertion is an arrival when it does not. The
history of a run notes this command by command, with a place for every command, so that
places in it are moments of the run.

A law that ties the entries of a store to what was noted so far holds along every run once
it is kept by single commands. As the entries decide which keys are resident, this is a
law of lineups.
-/

namespace GraphsAndCaches.BoundedStore

variable {policy : Policy} {κ ν : Type} [DecidableEq κ] [Hashable κ]

namespace Command

/-- Whether a command takes away no entry, unless to make room for a new one. -/
def keepsEntries : Command κ ν → Bool
  | .request (.erase _) | .request .clear | .popOldest => false
  | _ => true

/-- The key that a command uses. An insertion uses its key whether or not it is resident,
a `get` or a `touch` only a resident one. -/
def use? (resident : κ → Bool) : Command κ ν → Option κ
  | .request (.insert key _) => some key
  | .request (.get key) | .touch key => if resident key then some key else none
  | _ => none

/-- The key that arrives with a command, which is one that was not resident. -/
def arrival? (resident : κ → Bool) : Command κ ν → Option κ
  | .request (.insert key _) => if resident key then none else some key
  | _ => none

end Command

/-- What is to be noted of each command of a run, in view of the keys that are resident
when it comes. -/
def history (note : (κ → Bool) → Command κ ν → Option κ) (store : BoundedStore policy κ ν) :
    List (Command κ ν) → List (Option κ)
  | [] => []
  | command :: rest => note store.contains command :: (store.perform command).2.history note rest

/-- A relation between what was noted and the entries holds at the end of a run when it
holds at the beginning and single commands keep it. The commands may be restricted. -/
theorem Holds.run_history {note : (κ → Bool) → Command κ ν → Option κ}
    {capacity : Nat} {admitted : Command κ ν → Bool}
    {Related : List (Option κ) → Lineup κ ν → Prop}
    (keeps : ∀ {past : List (Option κ)} {entries : Lineup κ ν} {command : Command κ ν},
      (entries.map Prod.fst).Nodup → entries.length ≤ capacity → admitted command = true →
        Related past entries →
          Related (past ++ [note (fun key => (entries.lookup key).isSome) command])
            (entries.answer policy capacity command).2)
    {commands : List (Command κ ν)} (all : ∀ command ∈ commands, admitted command = true)
    {store : BoundedStore policy κ ν} {entries : Lineup κ ν}
    (holds : store.Holds capacity entries) {past : List (Option κ)}
    (related : Related past entries) :
    ∃ final : Lineup κ ν, (store.run commands).2.Holds capacity final ∧
      Related (past ++ store.history note commands) final := by
  induction commands generalizing store entries past with
  | nil =>
      rw [history, List.append_nil]
      exact ⟨entries, holds, related⟩
  | cons command rest inductionHypothesis =>
      obtain ⟨first, others⟩ := List.forall_mem_cons.mp all
      have resident : store.contains = fun key => (entries.lookup key).isSome :=
        funext holds.contains_eq
      have next := keeps holds.roster.distinct holds.fits first related
      rw [← resident] at next
      obtain ⟨final, held, relatedFinal⟩ :=
        inductionHypothesis others (holds.perform command).2 next
      rw [List.append_assoc, List.singleton_append] at relatedFinal
      exact ⟨final, held, relatedFinal⟩

end GraphsAndCaches.BoundedStore
