import OnePass.Instruction
import OnePass.Proofs.Reading.Lexemes

/-!
# Reading a listing

A listing is a text, and what it tells the machine is found by reading it: line by line, each with a
tab in front and a line feed behind it, the operand of an instruction between the letters that are
always the same. The listing of instructions with plain operands is read as these instructions
(`assemble_listing`).
-/

namespace OnePass

namespace Instruction

/-- An operand of letters and digits, as all operands of compiled programs are. -/
def IsWord (operand : String) : Prop :=
  operand.toList ≠ [] ∧ ∀ c ∈ operand.toList, c.isAlphanum = true

instance (operand : String) : Decidable (IsWord operand) :=
  decidable_of_decidable_of_iff
    (p := operand.toList ≠ [] ∧ operand.toList.all Char.isAlphanum = true)
    (and_congr_right fun _ => List.all_eq_true)

/-- The operand of the instruction, if it has one, is a word. -/
def Plain : Instruction → Prop
  | constant operand | load operand | address operand | branch operand => IsWord operand
  | _ => True

/-- The word that stands between two pieces of a text, if these are all there is beside it. -/
def operandOf (before after : String) (text : List Char) : Option String :=
  let word := (text.drop before.toList.length).takeWhile Char.isAlphanum
  if word ≠ [] ∧ text = before.toList ++ (word ++ after.toList) then some (String.ofList word)
  else none

def withoutOperand : List Instruction :=
  [clear, store, push, popDivisor, add, sub, neg, mul, div]

/-- The instruction that a text stands for. -/
def ofText? (text : List Char) : Option Instruction :=
  (operandOf "MOVE #" ",D0" text).map constant <|>
  (operandOf "MOVE " "(PC),D0" text).map load <|>
  (operandOf "LEA " "(PC),A0" text).map address <|>
  (operandOf "BSR " "" text).map branch <|>
  withoutOperand.find? fun instruction => instruction.text.toList = text

/-- An operand is read between the letters around it, if what is behind it cannot be a part of
it. -/
theorem operandOf_append {operand : String} (h : IsWord operand) (before after : String)
    (hafter : StopsAt Char.isAlphanum after.toList) :
    operandOf before after (before.toList ++ (operand.toList ++ after.toList)) = some operand := by
  have hword : ((before.toList ++ (operand.toList ++ after.toList)).drop
      before.toList.length).takeWhile Char.isAlphanum = operand.toList := by
    rw [List.drop_left, takeWhile_of_stopsAt h.2 hafter]
  unfold operandOf
  rw [hword]
  rw [if_pos ⟨h.1, rfl⟩, String.ofList_toList]

/-- Where the text begins otherwise, no operand is read. -/
theorem operandOf_eq_none {before : String} {text : List Char}
    (h : before.toList.isPrefixOf text = false) (after : String) :
    operandOf before after text = none := by
  unfold operandOf
  rw [if_neg]
  rintro ⟨-, htext⟩
  rw [htext, List.isPrefixOf_iff_prefix.2 (List.prefix_append _ _)] at h
  cases h

/-- An instruction is read from its text. -/
theorem ofText?_text {instruction : Instruction} (h : instruction.Plain) :
    ofText? instruction.text.toList = some instruction := by
  cases instruction with
  | constant operand =>
    have htext : (constant operand).text.toList =
        "MOVE #".toList ++ (operand.toList ++ ",D0".toList) := by
      rw [text, String.toList_append, String.toList_append, List.append_assoc]
    have hoperand := operandOf_append h "MOVE #" ",D0" (by decide)
    rw [ofText?, htext, hoperand]
    rfl
  | load operand =>
    obtain ⟨c, cs, hcs⟩ := List.exists_cons_of_ne_nil h.1
    -- a number would have its `#` where the operand has its first letter or digit
    have hc : c ≠ '#' := by
      rintro rfl
      have hword := h.2 '#' (by rw [hcs]; exact List.mem_cons_self)
      exact absurd hword (by decide)
    have htext : (load operand).text.toList =
        "MOVE ".toList ++ (operand.toList ++ "(PC),D0".toList) := by
      rw [text, String.toList_append, String.toList_append, List.append_assoc]
    have hconstant : "MOVE #".toList.isPrefixOf (load operand).text.toList = false := by
      rw [htext, hcs]
      simp [List.isPrefixOf, hc.symm]
    have hoperand := operandOf_append h "MOVE " "(PC),D0" (by decide)
    rw [ofText?, operandOf_eq_none hconstant, htext, hoperand]
    rfl
  | address operand =>
    have htext : (address operand).text.toList =
        "LEA ".toList ++ (operand.toList ++ "(PC),A0".toList) := by
      rw [text, String.toList_append, String.toList_append, List.append_assoc]
    have hconstant : "MOVE #".toList.isPrefixOf (address operand).text.toList = false := by
      rw [htext]
      rfl
    have hload : "MOVE ".toList.isPrefixOf (address operand).text.toList = false := by
      rw [htext]
      rfl
    have hoperand := operandOf_append h "LEA " "(PC),A0" (by decide)
    rw [ofText?, operandOf_eq_none hconstant, operandOf_eq_none hload, htext, hoperand]
    rfl
  -- the three forms before this one begin with other letters
  | branch operand =>
    have htext : (branch operand).text.toList =
        "BSR ".toList ++ (operand.toList ++ "".toList) := by
      rw [text, String.toList_append, String.toList_empty, List.append_nil]
    have hconstant : "MOVE #".toList.isPrefixOf (branch operand).text.toList = false := by
      rw [htext]
      rfl
    have hload : "MOVE ".toList.isPrefixOf (branch operand).text.toList = false := by
      rw [htext]
      rfl
    have haddress : "LEA ".toList.isPrefixOf (branch operand).text.toList = false := by
      rw [htext]
      rfl
    have hoperand := operandOf_append h "BSR " "" (by decide)
    rw [ofText?, operandOf_eq_none hconstant, operandOf_eq_none hload,
      operandOf_eq_none haddress, htext, hoperand]
    rfl
  | clear => decide
  | store => decide
  | push => decide
  | popDivisor => decide
  | add => decide
  | sub => decide
  | neg => decide
  | mul => decide
  | div => decide

theorem not_mem_of_isWord {operand : String} (h : IsWord operand) : '\n' ∉ operand.toList := by
  intro hmem
  exact absurd (h.2 '\n' hmem) (by decide)

/-- An instruction with a plain operand is written on one line. -/
theorem not_mem_text {instruction : Instruction} (h : instruction.Plain) :
    '\n' ∉ instruction.text.toList := by
  cases instruction with
  | constant operand => simp [text, String.toList_append, not_mem_of_isWord h]
  | load operand => simp [text, String.toList_append, not_mem_of_isWord h]
  | address operand => simp [text, String.toList_append, not_mem_of_isWord h]
  | branch operand => simp [text, String.toList_append, not_mem_of_isWord h]
  | clear => decide
  | store => decide
  | push => decide
  | popDivisor => decide
  | add => decide
  | sub => decide
  | neg => decide
  | mul => decide
  | div => decide

def ofLine? : List Char → Option Instruction
  | '\t' :: text => ofText? text
  | _ => none

end Instruction

/-! ## Lines -/

/-- The instructions on some lines. Behind the last line feed there is nothing. -/
def assembleLines : List (List Char) → Option (List Instruction)
  | [[]] => some []
  | line :: rest => do
    let instruction ← Instruction.ofLine? line
    let code ← assembleLines rest
    return instruction :: code
  | [] => none

/-- The instructions that a listing tells the machine to carry out. -/
def assemble (text : String) : Option (List Instruction) := assembleLines (text.toList.splitOn '\n')

def listing (code : List Instruction) : String := String.join (code.map Instruction.line)

/-- The listing of instructions is written one behind the other. -/
theorem listing_append (xs ys : List Instruction) :
    listing (xs ++ ys) = listing xs ++ listing ys := by
  rw [listing, List.map_append, String.join_append]
  rfl

/-- The first line of a listing, and the rest. -/
theorem toList_listing_cons (instruction : Instruction) (code : List Instruction) :
    (listing (instruction :: code)).toList =
      ('\t' :: instruction.text.toList) ++ '\n' :: (listing code).toList := by
  simp [listing, Instruction.line, String.toList_append]

/-- A listing says what it is a listing of. -/
theorem assemble_listing {code : List Instruction} (h : ∀ i ∈ code, i.Plain) :
    assemble (listing code) = some code := by
  induction code with
  | nil => rfl
  | cons i code ih =>
    have hi : i.Plain := h i List.mem_cons_self
    have hcode := ih fun j hj => h j (List.mem_cons_of_mem _ hj)
    have hline : '\n' ∉ '\t' :: i.text.toList := by simp [Instruction.not_mem_text hi]
    have hsplit : (listing (i :: code)).toList.splitOn '\n' =
        ('\t' :: i.text.toList) :: (listing code).toList.splitOn '\n' := by
      rw [toList_listing_cons, List.splitOn_append_cons_self_of_not_mem hline]
    -- the first line is the instruction, and the others are the rest of the listing
    have hread : Instruction.ofLine? ('\t' :: i.text.toList) = some i :=
      Instruction.ofText?_text hi
    rw [assemble] at hcode
    rw [assemble, hsplit, assembleLines, hread, hcode]
    · rfl
    · simp

end OnePass
