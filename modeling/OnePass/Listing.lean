import OnePass.Instruction
import OnePass.Sink

/-!
# Listings

The semantics that compiles a program: each construct means a few instructions, which are written at
once, one to a line. A value is always in the machine's register by then, so there is nothing to
hand back. The instructions are counted when their lines have been written completely.
-/

namespace OnePass.Listing

/-- The instructions that a construct is compiled to. -/
def code {α : Type} : Step α → List Instruction
  | .zero => [.clear]
  | .number digits => [.constant digits]
  | .load name => [.load name]
  | .call name => [.branch name]
  | .hold _ => [.push]
  | .combine .add _ _ => [.add]
  | .combine .sub _ _ => [.sub, .neg]
  | .combine .mul _ _ => [.mul]
  | .combine .div _ _ => [.popDivisor, .div]
  | .assign name _ => [.address name, .store]
  | .print name => [.load name, .branch "WRITE"]

/-- Writes the line of an instruction and counts it. -/
def emit (instruction : Instruction) : Action (Writing Nat) Unit := do
  Writing.write instruction.line
  Writing.update (· + 1)

/-- Writes the instructions of a construct. -/
def compile (step : Step Unit) : Action (Writing Nat) Unit := (code step).forM emit

/-- The memory of this semantics is the number of instructions written. -/
def semantics : Semantics (Writing Nat) Unit where
  calls := true
  zero := compile .zero
  number digits := compile (.number digits)
  load name := compile (.load name)
  call name := compile (.call name)
  hold lhs := compile (.hold lhs)
  combine op lhs rhs := compile (.combine op lhs rhs)
  assign name value := compile (.assign name value)
  print name := compile (.print name)

/-- Whether no instruction has been counted yet. -/
def isEmpty (state : Writing Nat) : Bool := state.memory = 0

end OnePass.Listing
