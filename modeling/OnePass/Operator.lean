/-!
# The arithmetic operators

Four operators in two levels of precedence: `+` and `-` are *additive*, `*` and `/` are
*multiplicative*. Each is written as one character, so `toChar` and `ofChar?` undo one another
(`ofChar?_toChar`, `ofChar?_eq_some_iff`).
-/

namespace OnePass

/-- The operators, without the characters that they are written with. -/
inductive Operator where
  | add
  | sub
  | mul
  | div
  deriving DecidableEq, Repr

namespace Operator

/-- The operator that a character stands for, if it stands for one. -/
def ofChar? : Char → Option Operator
  | '+' => some add
  | '-' => some sub
  | '*' => some mul
  | '/' => some div
  | _ => none

def toChar : Operator → Char
  | add => '+'
  | sub => '-'
  | mul => '*'
  | div => '/'

/-- The operators of a sum: they bind more loosely than those of a product. -/
def isAdditive : Operator → Bool
  | add | sub => true
  | mul | div => false

def isMultiplicative : Operator → Bool
  | add | sub => false
  | mul | div => true

/-- Each operator is read back from the character that it is written with. -/
@[simp] theorem ofChar?_toChar (op : Operator) : ofChar? op.toChar = some op := by
  cases op <;> rfl

/-- A character is read as an operator exactly when that operator is written with it. -/
theorem ofChar?_eq_some_iff {c : Char} {op : Operator} : ofChar? c = some op ↔ c = op.toChar := by
  constructor
  · intro h
    unfold ofChar? at h
    split at h <;> cases h <;> rfl
  · rintro rfl
    exact ofChar?_toChar op

/-- The two levels share no operator and leave none out. -/
theorem isMultiplicative_eq_not_isAdditive (op : Operator) :
    op.isMultiplicative = !op.isAdditive := by
  cases op <;> rfl

end Operator

end OnePass
