import OnePass.Fault
import OnePass.Proofs.Syntax

/-!
# What programs mean

The reference that the semantics are measured against. Trees are evaluated from left to right, by an
*arithmetic* (`Arith`) that says what literals and operators mean: over the integers that is the
exact result (`Arith.exact`), or the exact result if it fits in a word (`Arith.checked`). What a
program means is the numbers it prints and the variables it ends with, or the cause of its early end
(`outcome`).
-/

namespace OnePass

/-! ## Arithmetic -/

/-- What literals and operators mean for numbers of a type. -/
@[ext]
structure Arith (R : Type) where
  zero : R
  literal : Nat → Except Cause R
  apply : Operator → R → R → Except Cause R

/-- The exact result of an operator. Division drops the fraction. -/
def Operator.exact (op : Operator) (a b : Int) : Except Cause Int :=
  match op with
  | .add => .ok (a + b)
  | .sub => .ok (a - b)
  | .mul => .ok (a * b)
  | .div => if b = 0 then .error .divisionByZero else .ok (a.tdiv b)

/-- The integer fits in a word. -/
def InRange (n : Int) : Prop := -2147483648 ≤ n ∧ n ≤ 2147483647

instance (n : Int) : Decidable (InRange n) :=
  inferInstanceAs (Decidable (-2147483648 ≤ n ∧ n ≤ 2147483647))

/-- An integer has to fit in a word. -/
def checked (n : Int) : Except Cause Int := if InRange n then .ok n else .error .overflow

namespace Arith

/-- Integers without a bound. -/
def exact : Arith Int where
  zero := 0
  literal n := .ok n
  apply := Operator.exact

/-- Integers that fit in a word: every literal and every result is checked at once. -/
def checked : Arith Int where
  zero := 0
  literal n := OnePass.checked n
  apply op a b := do
    let n ← op.exact a b
    OnePass.checked n

end Arith

/-! ## Trees -/

variable {R : Type} (arith : Arith R)

/-- The number that decimal digits denote. -/
def decimal (digits : String) : Nat := Nat.ofDigitChars 10 digits.toList 0

/-- The value of an expression, its left operands first. Subroutines have no value here. -/
def Expr.value (vars : String → R) : Expr → Except Cause R
  | .zero => .ok arith.zero
  | .number digits => arith.literal (decimal digits)
  | .var name => .ok (vars name)
  | .call _ => .error (.internal "CALLS NOT SUPPORTED")
  | .binary op lhs rhs => do
    let a ← lhs.value vars
    let b ← rhs.value vars
    arith.apply op a b

def Stmt.after (vars : String → R) : Stmt → Except Cause (String → R)
  | .print _ => .ok vars
  | .input name digits => do
    let n ← arith.literal (decimal digits)
    return Function.update vars name n
  | .assign name e => do
    let n ← e.value arith vars
    return Function.update vars name n

def Stmt.printed (vars : String → R) : Stmt → List R
  | .print name => [vars name]
  | .input _ _ | .assign _ _ => []

/-- Only an output prints, and an output does not fail. -/
theorem Stmt.printed_of_error {arith : Arith R} {vars : String → R} {s : Stmt} {cause : Cause}
    (h : s.after arith vars = .error cause) : s.printed vars = [] := by
  cases s with
  | print name => cases h
  | input name digits => rfl
  | assign name e => rfl

/-- What a program does. -/
structure Outcome (R : Type) where
  /-- The numbers it prints. -/
  printed : List R
  /-- The variables at the end, or the cause of an early end. -/
  result : Except Cause (String → R)

/-- What statements do, one after another. Nothing is done behind one that fails, and that one
prints nothing. -/
def outcome (vars : String → R) : List Stmt → Outcome R
  | [] => ⟨[], .ok vars⟩
  | s :: ss =>
    match s.after arith vars with
    | .error cause => ⟨[], .error cause⟩
    | .ok vars' =>
      let rest := outcome vars' ss
      ⟨s.printed vars ++ rest.printed, rest.result⟩

/-- A statement that fails ends the program. -/
theorem outcome_cons_error {arith : Arith R} {vars : String → R} {s : Stmt} {cause : Cause}
    (h : s.after arith vars = .error cause) (ss : List Stmt) :
    outcome arith vars (s :: ss) = ⟨[], .error cause⟩ := by
  rw [outcome, h]

/-- A statement that succeeds is followed by the others, with the variables that it has left. -/
theorem outcome_cons_ok {arith : Arith R} {vars vars' : String → R} {s : Stmt}
    (h : s.after arith vars = .ok vars') (ss : List Stmt) :
    outcome arith vars (s :: ss) =
      ⟨s.printed vars ++ (outcome arith vars' ss).printed, (outcome arith vars' ss).result⟩ := by
  rw [outcome, h]

/-! ## Lines -/

def lines (numbers : List Int) : String :=
  String.join (numbers.map fun n => toString n ++ "\n")

theorem append_lines_nil (text : String) : text ++ lines [] = text := String.append_empty

/-- Numbers are printed one list behind the other. -/
theorem lines_append (xs ys : List Int) : lines (xs ++ ys) = lines xs ++ lines ys := by
  rw [lines, List.map_append, String.join_append]
  rfl

end OnePass
