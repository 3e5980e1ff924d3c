import OnePass.Sink
import OnePass.Store

/-!
# Evaluation

The semantics that runs a program: a construct means its value, an assignment changes the store, an
output writes one line. There are no subroutines to call.
-/

namespace OnePass.Evaluation

/-- Values are computed as soon as they are read, with checked arithmetic. -/
def semantics : Semantics (Writing Store) Word where
  calls := false
  zero := pure 0
  number digits := .ofExcept (Word.ofText digits)
  load name := return (← get).memory.get name
  call _ := .callsNotSupported
  hold lhs := pure lhs
  combine op lhs rhs := .ofExcept (op.apply lhs rhs)
  assign name value := Writing.update fun store => store.set name value
  print name := do
    let state ← get
    Writing.write ((state.memory.get name).text ++ "\n")

end OnePass.Evaluation
