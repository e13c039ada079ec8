/-!
# Diagnostics and surroundings

A diagnostic records one noteworthy moment of a run. It carries its
measurements as data; its severity, text and field names are functions of it,
so that two diagnostics are equal exactly when their renderings agree.

Caches call back into code that they do not own. `Surroundings` pairs the state
of that code with the journal of diagnostics, and `Act` is a computation that
may change both. A handler is run with `Act.call`, which keeps the journal out
of its reach: only the library writes diagnostics.
-/

namespace GraphsAndCaches

/-- How much attention a diagnostic asks for. -/
inductive Severity where
  | trace
  | debug
deriving DecidableEq, Repr

/-- The upper-case name under which a severity is displayed. -/
def Severity.label : Severity → String
  | .trace => "TRACE"
  | .debug => "DEBUG"

/-- A measurement is a number or a truth value. -/
inductive Measurement where
  | count (number : Nat)
  | flag (truth : Bool)
deriving DecidableEq, Repr

/-- The moments that are recorded. -/
inductive Diagnostic where
  /-- A traversal closed a component at `root`. -/
  | componentClosed (root size : Nat) (selfLoop : Bool)
  /-- A traversal of a whole graph ended. -/
  | componentsResolved (vertices components cycles : Nat)
  /-- A cache of `size` entries is about to lose one of them to a newcomer. -/
  | evicting (size : Nat)
  /-- A resource could not be created while `resident` others were held. -/
  | creationFailed (resident : Nat)
  /-- The teardown of one erased resource failed. -/
  | destructionFailed
  /-- While a resource cache was emptied, `failures` teardowns failed. -/
  | clearingFailed (failures : Nat)
deriving DecidableEq, Repr

namespace Diagnostic

/-- Only the closing of a single component is as fine as a trace. -/
def severity : Diagnostic → Severity
  | .componentClosed .. => .trace
  | _ => .debug

/-- The text of a diagnostic does not depend on its measurements. -/
def message : Diagnostic → String
  | .componentClosed .. => "component closed"
  | .componentsResolved .. => "strongly connected components resolved"
  | .evicting _ => "evicting entry to make room"
  | .creationFailed _ => "resource creation failed"
  | .destructionFailed => "resource destroy handler reported failure"
  | .clearingFailed _ => "resource destroy handler reported failures during clear"

/-- The measurements of a diagnostic under their names. -/
def measurements : Diagnostic → List (String × Measurement)
  | .componentClosed root size selfLoop =>
      [("root", .count root), ("size", .count size), ("self_loop", .flag selfLoop)]
  | .componentsResolved vertices components cycles =>
      [("vertices", .count vertices), ("components", .count components),
        ("cycles", .count cycles)]
  | .evicting size => [("size", .count size)]
  | .creationFailed resident => [("resident", .count resident)]
  | .destructionFailed => []
  | .clearingFailed failures => [("failures", .count failures)]

end Diagnostic

/-- What lies around a cache: the state of the code it calls, and the journal of
diagnostics in the order in which they were recorded. -/
structure Surroundings (ω : Type) where
  outside : ω
  journal : Array Diagnostic := #[]
deriving Repr

/-- A computation that calls outside code and records diagnostics. -/
abbrev Act (ω : Type) := StateM (Surroundings ω)

namespace Act

variable {ω α : Type}

/-- Run outside code. It sees and changes its own state and nothing else. -/
def call (action : StateM ω α) : Act ω α := fun around =>
  let (answer, outside) := action.run around.outside
  (answer, { around with outside })

/-- Record one diagnostic at the end of the journal. -/
def record (diagnostic : Diagnostic) : Act ω Unit := fun around =>
  ((), { around with journal := around.journal.push diagnostic })

/-- One act after another runs in the surroundings that the first one leaves. -/
theorem run_bind {β : Type} (first : Act ω α) (second : α → Act ω β)
    (around : Surroundings ω) :
    (first >>= second).run around =
      (second (first.run around).1).run (first.run around).2 := rfl

/-- Outside code changes what lies outside, and writes no diagnostics. -/
theorem run_call (action : StateM ω α) (around : Surroundings ω) :
    (call action).run around =
      ((action.run around.outside).1,
        { around with outside := (action.run around.outside).2 }) := rfl

end Act

end GraphsAndCaches
