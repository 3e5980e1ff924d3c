import OnePass.Arithmetic
import OnePass.Proofs.Reading.Texts
import OnePass.Proofs.Reference

/-!
# Words as integers

A word stands for an integer in range, and an integer in range is that of one word. The checked
operations are the exact ones with a check behind them.
-/

namespace OnePass

namespace Word

/-- The integer of a word is in range. -/
theorem inRange (w : Word) : InRange w.toInt := by
  have hlo := Int32.le_toInt w
  have hhi := Int32.toInt_lt w
  unfold InRange
  omega

/-- An integer in range is read from its word. -/
theorem toInt_ofInt {n : Int} (h : InRange n) : (Int32.ofInt n).toInt = n := by
  obtain ⟨hlo, hhi⟩ := h
  exact Int32.toInt_ofInt_of_le (by omega) (by omega)

theorem ofInt_of_inRange {n : Int} (h : InRange n) : ofInt n = .ok (Int32.ofInt n) := if_pos h

theorem ofInt_of_not_inRange {n : Int} (h : ¬ InRange n) : ofInt n = .error .overflow := if_neg h

/-- Digits have a magnitude. -/
theorem magnitude?_of_digits {ds : List Char} (h : Digits ds) :
    magnitude? ds = some (Nat.ofDigitChars 10 ds 0) := by
  have hall : ds.all Char.isDigit = true := List.all_eq_true.2 h.2
  exact if_pos ⟨h.1, hall⟩

/-- Digits without a sign denote their value. -/
theorem integer?_of_digits {ds : List Char} (h : Digits ds) :
    integer? ds = some (decimal (String.ofList ds) : Int) := by
  have hmagnitude := magnitude?_of_digits h
  rw [decimal, String.toList_ofList]
  unfold integer?
  split
  · exact absurd (h.2 '+' List.mem_cons_self) (by decide)
  · exact absurd (h.2 '-' List.mem_cons_self) (by decide)
  · rw [hmagnitude]
    rfl

/-- Behind a minus they denote its negation. -/
theorem integer?_minus_of_digits {ds : List Char} (h : Digits ds) :
    integer? ('-' :: ds) = some (-(decimal (String.ofList ds) : Int)) := by
  have hmagnitude := magnitude?_of_digits h
  rw [decimal, String.toList_ofList]
  simp only [integer?, hmagnitude]
  rfl

theorem ofText_of_digits {ds : List Char} (h : Digits ds) :
    ofText (String.ofList ds) = ofInt (decimal (String.ofList ds)) := by
  rw [ofText, String.toList_ofList, integer?_of_digits h]

/-- The decimal text of a number is digits. -/
theorem digits_toDigits (n : Nat) : Digits (Nat.toDigits 10 n) :=
  ⟨Nat.toDigits_ne_nil, fun _ hc => Nat.isDigit_of_mem_toDigits (by decide) (by decide) hc⟩

/-- The decimal text of an integer is a literal that denotes it. -/
theorem integer?_toString (n : Int) : integer? (toString n).toList = some n := by
  rw [Int.toString_eq_repr, Int.repr_eq_if]
  by_cases hn : 0 ≤ n
  · have hds := digits_toDigits n.toNat
    rw [if_pos hn, Nat.toList_repr, integer?_of_digits hds, decimal, String.toList_ofList,
      Nat.ofDigitChars_ten_toDigits, Int.toNat_of_nonneg hn]
  · have hds := digits_toDigits (-n).toNat
    rw [if_neg hn, String.toList_append, Nat.toList_repr]
    have hminus := integer?_minus_of_digits hds
    rw [decimal, String.toList_ofList, Nat.ofDigitChars_ten_toDigits] at hminus
    -- a negative integer is the negation of its magnitude
    have hneg : -((-n).toNat : Int) = n := by omega
    rw [hneg] at hminus
    exact hminus

/-- To read the decimal text of an integer is to check its range. -/
theorem ofText_toString (n : Int) : ofText (toString n) = ofInt n := by
  rw [ofText, integer?_toString]

/-- A word stands for its own integer. -/
theorem ofInt_toInt (w : Word) : ofInt w.toInt = .ok w := by
  rw [ofInt_of_inRange w.inRange, Int32.ofInt_toInt]

end Word

/-- Only a division has no exact result. -/
theorem Operator.cause_of_exact {op : Operator} {a b : Int} {cause : Cause}
    (h : op.exact a b = .error cause) : cause = .divisionByZero := by
  cases op with
  | add => cases h
  | sub => cases h
  | mul => cases h
  | div =>
    by_cases hb : b = 0
    · rw [exact, if_pos hb] at h
      exact (Except.error.inj h).symm
    · rw [exact, if_neg hb] at h
      cases h

/-- What is done to an exact result before it is a word. -/
theorem Operator.apply_eq (op : Operator) (a b : Word) :
    op.apply a b =
      match op.exact a.toInt b.toInt with
      | .ok n => Word.ofInt n
      | .error cause => .error { cause } := by
  cases op with
  | add => rfl
  | sub => rfl
  | mul => rfl
  | div =>
    -- both tests for a zero divisor answer the same
    have hzero : b.toInt = 0 ↔ b = 0 := by
      rw [← Int32.toInt_zero]
      exact Int32.toInt_inj
    by_cases hb : b = 0
    · rw [apply, exact, if_pos hb, if_pos (hzero.2 hb)]
      rfl
    · rw [apply, exact, if_neg hb, if_neg (mt hzero.1 hb)]

/-! ## Lines -/

/-- Integers with the same decimal text are the same. -/
theorem toString_injective {m n : Int} (h : toString m = toString n) : m = n := by
  have hm := Word.integer?_toString m
  rw [h, Word.integer?_toString n] at hm
  exact (Option.some.inj hm).symm

/-- No decimal text goes over a line. -/
theorem newline_not_mem_toString (n : Int) : '\n' ∉ (toString n).toList := by
  intro hmem
  -- a line feed is no digit, and it is no sign
  have hdigit (k : Nat) : '\n' ∉ Nat.toDigits 10 k := fun h =>
    absurd ((Word.digits_toDigits k).2 _ h) (by decide)
  rw [Int.toString_eq_repr, Int.repr_eq_if] at hmem
  split at hmem
  · rw [Nat.toList_repr] at hmem
    exact hdigit _ hmem
  · rw [String.toList_append, Nat.toList_repr, List.mem_append] at hmem
    exact hmem.elim (by decide) (hdigit _)

/-- The first integer is on the first line. -/
theorem toList_lines_cons (n : Int) (ns : List Int) :
    (lines (n :: ns)).toList = (toString n).toList ++ '\n' :: (lines ns).toList := by
  simp [lines, String.toList_append]

/-- Lines tell which integers they are the lines of. -/
theorem lines_injective {xs ys : List Int} (h : lines xs = lines ys) : xs = ys := by
  replace h : (lines xs).toList = (lines ys).toList := by rw [h]
  induction xs generalizing ys with
  | nil =>
    cases ys with
    | nil => rfl
    | cons y ys =>
      rw [toList_lines_cons] at h
      simp [lines] at h
  | cons x xs ih =>
    cases ys with
    | nil =>
      rw [toList_lines_cons] at h
      simp [lines] at h
    | cons y ys =>
      rw [toList_lines_cons, toList_lines_cons] at h
      -- the first line feeds are at the same place
      obtain ⟨hhead, htail⟩ :=
        eq_of_append_cons h (newline_not_mem_toString x) (newline_not_mem_toString y)
      rw [toString_injective (String.toList_inj.1 hhead), ih htail]

end OnePass
