import OnePass.Cursor
import OnePass.Fault
import OnePass.Operator

/-!
# What a program means while it is read

No tree of a program is ever built. As soon as a construct is recognised it is handed to a
*semantics*, which acts on a state of its own and answers with a value: the number a construct
stands for, or a mark for the code that will compute it. `A=3*B` is handed over as the steps
`number "3"`, `hold`, `load "B"`, `combine .mul` and `assign "A"`.

The steps are also there as data (`Step`), so that a list of them can be recorded and performed.
-/

namespace OnePass

/-- What a semantics does in one step: it changes its state, and answers or fails. What was changed
before a failure stays changed. -/
abbrev Action (σ α : Type) := EStateM Fault σ α

/-- The meaning of each construct, over states `σ` and values `α`. -/
structure Semantics (σ α : Type) where
  /-- Whether `name()` is a construct of the language. -/
  calls : Bool
  /-- The value that a leading sign applies to. -/
  zero : Action σ α
  /-- The value of a literal, given by its digits. -/
  number : String → Action σ α
  load : String → Action σ α
  call : String → Action σ α
  /-- Puts a left operand aside, before its right operand is read. -/
  hold : α → Action σ α
  /-- Applies an operator to the operand that was put aside and the one just read. -/
  combine : Operator → α → α → Action σ α
  assign : String → α → Action σ Unit
  print : String → Action σ Unit

/-- A result that does not depend on the state. -/
def Action.ofExcept {σ α : Type} : Except Fault α → Action σ α
  | .ok a => pure a
  | .error fault => throw fault

/-- The answer of a semantics that knows no subroutines. -/
def Action.callsNotSupported {σ α : Type} : Action σ α :=
  throw (.internal "CALLS NOT SUPPORTED")

/-! ## Steps as data -/

/-- One construct as it is handed to a semantics whose values are `α`. -/
inductive Step (α : Type) where
  | zero
  | number (digits : String)
  | load (name : String)
  | call (name : String)
  | hold (lhs : α)
  | combine (op : Operator) (lhs rhs : α)
  | assign (name : String) (value : α)
  | print (name : String)
  deriving DecidableEq, Repr

/-- Whether a step has a value: all have but assignments and outputs. -/
def Step.hasValue {α : Type} : Step α → Bool
  | .assign _ _ | .print _ => false
  | _ => true

def Semantics.perform {σ α : Type} (m : Semantics σ α) : Step α → Action σ (Option α)
  | .zero => some <$> m.zero
  | .number digits => some <$> m.number digits
  | .load name => some <$> m.load name
  | .call name => some <$> m.call name
  | .hold lhs => some <$> m.hold lhs
  | .combine op lhs rhs => some <$> m.combine op lhs rhs
  | .assign name value => (fun _ => none) <$> m.assign name value
  | .print name => (fun _ => none) <$> m.print name

/-! ## Place and time

A semantics does not see the text. Where an account is kept of what happened where and when, its
state is told before each action where the cursor stands. The time is how often the source of the
cursor has been asked for further text. -/

/-- A semantics whose state keeps an account of place and time. -/
structure Clocked (σ α : Type) extends Semantics σ α where
  /-- Tells the state where the cursor stands. -/
  tick : Cursor → σ → σ

/-- A semantics to which place and time are no matter. -/
def Semantics.timeless {σ α : Type} (m : Semantics σ α) : Clocked σ α where
  toSemantics := m
  tick _ state := state

end OnePass
