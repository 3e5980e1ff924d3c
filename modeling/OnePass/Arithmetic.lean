import OnePass.Fault
import OnePass.Operator

/-!
# Checked arithmetic

The values of the language are 32-bit words, read as signed numbers. An operation takes the exact
result over the integers and then checks that it fits: nothing wraps around. Division drops the
fraction, so it rounds toward zero.
-/

namespace OnePass

/-- A value of the language: a signed number of 32 bits. -/
abbrev Word := Int32

namespace Word

/-- The word that stands for an integer, if one does. -/
def ofInt (n : Int) : Except Fault Word :=
  if -2147483648 ≤ n ∧ n ≤ 2147483647 then .ok (Int32.ofInt n) else .error .overflow

/-- The number that decimal digits denote, if there are any and all are digits. -/
def magnitude? (digits : List Char) : Option Nat :=
  if digits ≠ [] ∧ digits.all Char.isDigit then some (Nat.ofDigitChars 10 digits 0) else none

/-- The integer that a literal denotes: digits, with at most one sign before them. -/
def integer? : List Char → Option Int
  | '+' :: digits => (magnitude? digits).map fun n => n
  | '-' :: digits => (magnitude? digits).map fun n => -n
  | digits => (magnitude? digits).map fun n => n

/-- The word that a literal denotes. A text that is no literal is treated like one too large. -/
def ofText (text : String) : Except Fault Word :=
  match integer? text.toList with
  | some n => ofInt n
  | none => .error .overflow

/-- The decimal text of a word, with `-` before a negative one. -/
def text (w : Word) : String := toString w.toInt

end Word

def Operator.apply (op : Operator) (a b : Word) : Except Fault Word :=
  match op with
  | .add => Word.ofInt (a.toInt + b.toInt)
  | .sub => Word.ofInt (a.toInt - b.toInt)
  | .mul => Word.ofInt (a.toInt * b.toInt)
  | .div => if b = 0 then .error .divisionByZero else Word.ofInt (a.toInt.tdiv b.toInt)

end OnePass
