/-!
# Instructions of the target machine

The part of the 68000's instruction set that programs are compiled to. The value of an expression is
left in `D0`; left operands wait on the stack until their right operands are there.
-/

namespace OnePass

/-- One instruction. Operands are kept as they are written. -/
inductive Instruction where
  | clear
  /-- Loads a number into `D0`. -/
  | constant (digits : String)
  /-- Loads a variable into `D0`. -/
  | load (name : String)
  /-- Loads the address of a variable into `A0`. -/
  | address (name : String)
  /-- Stores `D0` at the address in `A0`. -/
  | store
  | push
  /-- Pops into `D1`. -/
  | popDivisor
  /-- Pops and adds to `D0`. -/
  | add
  /-- Pops and subtracts from `D0`. -/
  | sub
  | neg
  /-- Pops and multiplies `D0`. -/
  | mul
  /-- Divides `D0` by `D1`. -/
  | div
  | branch (name : String)
  deriving DecidableEq, Repr

namespace Instruction

/-- An instruction as an assembler reads it. -/
def text : Instruction → String
  | clear => "CLR D0"
  | constant digits => "MOVE #" ++ digits ++ ",D0"
  | load name => "MOVE " ++ name ++ "(PC),D0"
  | address name => "LEA " ++ name ++ "(PC),A0"
  | store => "MOVE D0,(A0)"
  | push => "MOVE D0,-(SP)"
  | popDivisor => "MOVE (SP)+,D1"
  | add => "ADD (SP)+,D0"
  | sub => "SUB (SP)+,D0"
  | neg => "NEG D0"
  | mul => "MULS (SP)+,D0"
  | div => "DIVS D1,D0"
  | branch name => "BSR " ++ name

/-- The line of a listing that holds an instruction. -/
def line (instruction : Instruction) : String := "\t" ++ instruction.text ++ "\n"

end Instruction

end OnePass
