/-!
# Faults

A *fault* ends the work on a program. It has a *cause* and, when the cause is the text itself, the
*column* of the character at hand. Faults of arithmetic, of output and of a semantics have no place
in the text; their column is empty and stands at the start.
-/

namespace OnePass

/-- A range of characters of the source, counted from 0: from `first` up to, but not including,
`last`. -/
structure Column where
  first : Nat
  last : Nat
  deriving DecidableEq, Repr

/-- The column of a fault that has no place in the text. -/
def Column.nowhere : Column := ⟨0, 0⟩

/-- Why the work on a program ended early. -/
inductive Cause where
  /-- The character at hand does not begin what the grammar asks for here. -/
  | expected (what : String)
  /-- The text ended where the grammar asks for more. -/
  | endOfInput (what : String)
  | divisionByZero
  /-- A literal or a result does not fit in a word. -/
  | overflow
  /-- The surroundings failed: the output, a file, a semantics. -/
  | internal (detail : String)
  deriving DecidableEq, Repr

/-- The words a user reads. Quotation marks around a symbol are part of `what`. -/
def Cause.message : Cause → String
  | expected what => what ++ " Expected"
  | endOfInput what => what ++ " Expected at end of input"
  | divisionByZero => "Division by zero"
  | overflow => "Overflow"
  | internal detail => if detail = "" then "Internal error" else "Internal error; " ++ detail

structure Fault where
  cause : Cause
  column : Column := .nowhere
  deriving DecidableEq, Repr

namespace Fault

/-- The words a user reads; the column is not among them. -/
def message (fault : Fault) : String := fault.cause.message

/-- The words and the column, for someone who inspects the fault itself. -/
def describe (fault : Fault) : String :=
  "Error \x7b " ++ fault.message ++ " (" ++ toString fault.column.first ++ ".."
    ++ toString fault.column.last ++ ") \x7d"

def divisionByZero : Fault := { cause := .divisionByZero }

def overflow : Fault := { cause := .overflow }

def internal (detail : String) : Fault := { cause := .internal detail }

end Fault

end OnePass
