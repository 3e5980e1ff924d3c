import OnePass.Semantics

/-!
# Recordings

The semantics that only takes notes. Its values are numbers, given out in turn from 0, so an entry
says which earlier values a step was handed. A recording may be told to let one step fail, and how
it takes subroutine calls.
-/

namespace OnePass

structure Entry where
  /-- The step, with the values it was handed. -/
  step : Step Nat
  /-- The value it was given, if it has one. -/
  value : Option Nat
  /-- Whether it failed, so that its value was never made. -/
  failed : Bool := false
  deriving DecidableEq, Repr

structure Trace where
  values : Nat := 0
  /-- The notes, the newest first. -/
  entries : List Entry := []
  deriving DecidableEq, Repr

namespace Trace

/-- How a recording takes subroutine calls. -/
inductive Calls where
  /-- They are not in the language. -/
  | absent
  /-- They are noted like other steps. -/
  | noted
  /-- They are in the language, and refused without a note. -/
  | refused
  deriving DecidableEq, Repr

/-- A step that is to fail: its place among the steps, counted from 1, and how it fails. -/
structure Stop where
  place : Nat
  fault : Fault
  deriving DecidableEq, Repr

/-- Notes a step and gives out its value. -/
def note (stop : Option Stop) (step : Step Nat) : Action Trace Nat := fun trace =>
  let entry : Entry := { step, value := if step.hasValue then some trace.values else none }
  match stop.filter (·.place = trace.entries.length + 1) with
  | some stop =>
    .error stop.fault { trace with entries := { entry with failed := true } :: trace.entries }
  | none =>
    .ok trace.values
      { values := if step.hasValue then trace.values + 1 else trace.values
        entries := entry :: trace.entries }

/-- The semantics that notes its steps. -/
def semantics (calls : Calls) (stop : Option Stop := none) : Semantics Trace Nat where
  calls := calls ≠ .absent
  zero := note stop .zero
  number digits := note stop (.number digits)
  load name := note stop (.load name)
  call name := if calls = .noted then note stop (.call name) else .callsNotSupported
  hold lhs := note stop (.hold lhs)
  combine op lhs rhs := note stop (.combine op lhs rhs)
  assign name value := (fun _ => ()) <$> note stop (.assign name value)
  print name := (fun _ => ()) <$> note stop (.print name)

end Trace

end OnePass
