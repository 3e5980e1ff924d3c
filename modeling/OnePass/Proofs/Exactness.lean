import Mathlib.Tactic.Ring
import OnePass.Proofs.Literals

/-!
# Checked operations are exact

An operation on words has the exact result over the integers, or it fails. What an exact result is
does not depend on how it is computed (`Operator.Yields`): a quotient is the integer that leaves a
remainder which is smaller than the divisor and has the sign of the dividend.

* **`tdiv_eq_of_remainder`** — only the quotient rounded toward zero leaves such a remainder.
* **`not_inRange_tdiv_iff`** — one quotient of words is no word.
* **`operations_exact`** — what an operation does with two words, whatever they are.
-/

namespace OnePass

/-! ## Quotients -/

/-- The integer is the exact result of the operator. Nothing is the quotient by zero, since no
remainder is smaller than that. -/
def Operator.Yields (op : Operator) (a b n : Int) : Prop :=
  match op with
  | .add => n = a + b
  | .sub => n = a - b
  | .mul => n = a * b
  | .div => ∃ r, a = n * b + r ∧ |r| < |b| ∧ (r = 0 ∨ r.sign = a.sign)

/-- Nothing is smaller than a divisor that is zero. -/
theorem ne_zero_of_remainder {b r : Int} (h : |r| < |b|) : b ≠ 0 := by
  rintro rfl
  exact absurd h (by simp)

/-- A remainder of the sign of the dividend is that of the quotient rounded toward zero. -/
theorem tdiv_eq_of_remainder {a b n r : Int} (h : a = n * b + r) (hr : |r| < |b|)
    (hsign : r = 0 ∨ r.sign = a.sign) : a.tdiv b = n := by
  have hb : b ≠ 0 := ne_zero_of_remainder hr
  have hsum : r + b * n = a := by rw [h]; ring
  rw [Int.abs_eq_natAbs, Int.abs_eq_natAbs] at hr
  -- the remainder has the sign of the dividend, so it is the one that the quotient leaves
  rcases le_total 0 a with ha | ha
  · have hnonneg : 0 ≤ r := by
      rcases hsign with rfl | hsign
      · exact le_refl 0
      · exact Int.sign_nonneg_iff.1 (hsign ▸ Int.sign_nonneg_iff.2 ha)
    exact ((Int.tdiv_tmod_unique ha hb).2 ⟨hsum, hnonneg, by omega⟩).1
  · have hnonpos : r ≤ 0 := by
      rcases hsign with rfl | hsign
      · exact le_refl 0
      · exact Int.sign_nonpos_iff.1 (hsign ▸ Int.sign_nonpos_iff.2 ha)
    exact ((Int.tdiv_tmod_unique' ha hb).2 ⟨hsum, by omega, hnonpos⟩).1

/-- The quotient that is rounded toward zero leaves such a remainder. -/
theorem yields_tdiv {a b : Int} (hb : b ≠ 0) : Operator.div.Yields a b (a.tdiv b) := by
  refine ⟨a.tmod b, ?_, ?_, ?_⟩
  · rw [Int.mul_comm, Int.mul_tdiv_add_tmod]
  · rw [Int.abs_eq_natAbs, Int.abs_eq_natAbs, Int.natAbs_tmod]
    exact Int.ofNat_lt.2 (Nat.mod_lt _ (Int.natAbs_pos.2 hb))
  · rw [Int.sign_tmod]
    by_cases hdvd : b ∣ a
    · exact .inl (Int.tmod_eq_zero_of_dvd hdvd)
    · exact .inr (if_neg hdvd)

/-- What is computed is the exact result. -/
theorem Operator.exact_eq_ok_iff {op : Operator} {a b n : Int} :
    op.exact a b = .ok n ↔ op.Yields a b n := by
  cases op with
  | add => exact ⟨fun h => (Except.ok.inj h).symm, fun h => congrArg Except.ok h.symm⟩
  | sub => exact ⟨fun h => (Except.ok.inj h).symm, fun h => congrArg Except.ok h.symm⟩
  | mul => exact ⟨fun h => (Except.ok.inj h).symm, fun h => congrArg Except.ok h.symm⟩
  | div =>
    constructor
    · intro h
      by_cases hb : b = 0
      · rw [exact, if_pos hb] at h
        cases h
      · rw [exact, if_neg hb] at h
        cases h
        exact yields_tdiv hb
    · -- there is no other quotient with such a remainder
      rintro ⟨r, h, hr, hsign⟩
      rw [exact, if_neg (ne_zero_of_remainder hr), tdiv_eq_of_remainder h hr hsign]

/-- Only a quotient by zero does not exist. -/
theorem Operator.exact_eq_error_iff {op : Operator} {a b : Int} {cause : Cause} :
    op.exact a b = .error cause ↔ cause = .divisionByZero ∧ op = .div ∧ b = 0 := by
  constructor
  · intro h
    -- no other cause is known to exact operators
    have hcause := cause_of_exact h
    cases op with
    | div =>
      by_cases hb : b = 0
      · exact ⟨hcause, rfl, hb⟩
      · rw [exact, if_neg hb] at h
        cases h
    | _ => cases h
  · rintro ⟨rfl, rfl, rfl⟩
    rfl

/-- Of the quotients of words one is too large, that of the least word by minus one. -/
theorem not_inRange_tdiv_iff {a b : Int} (ha : InRange a) :
    ¬ InRange (a.tdiv b) ↔ a = -2147483648 ∧ b = -1 := by
  -- magnitudes are divided, and the sign comes after
  have hmagnitude : (a.tdiv b).natAbs = a.natAbs / b.natAbs := Int.natAbs_tdiv a b
  constructor
  · intro hlarge
    unfold InRange at ha hlarge
    by_cases hone : b.natAbs = 1
    · -- only the negation of a word may be too large
      rcases Int.natAbs_eq_iff.1 hone with rfl | rfl
      · rw [Nat.cast_one, Int.tdiv_one] at hlarge
        omega
      · rw [Nat.cast_one, Int.tdiv_neg, Int.tdiv_one] at hlarge
        exact ⟨by omega, rfl⟩
    · -- any other divisor makes the magnitude zero or half as large
      have hhalf : a.natAbs / b.natAbs ≤ a.natAbs / 2 := by
        rcases Nat.eq_zero_or_pos b.natAbs with hzero | hpos
        · rw [hzero, Nat.div_zero]
          exact Nat.zero_le _
        · exact Nat.div_le_div_left (by omega) (by decide)
      omega
  · rintro ⟨rfl, rfl⟩
    decide

namespace Word

/-- To negate a word is exact if the result is a word. -/
theorem toInt_neg {w : Word} (h : InRange (-w.toInt)) : (-w).toInt = -w.toInt := by
  obtain ⟨hlo, hhi⟩ := h
  rw [Int32.toInt_neg]
  exact Int.bmod_eq_of_le (by omega) (by omega)

end Word

/-! ## Operations on words -/

namespace Operator

variable {op : Operator} {a b : Word}

/-- An operation succeeds with the exact result, if that is a word. -/
theorem apply_eq_ok_iff {v : Word} :
    op.apply a b = .ok v ↔ op.Yields a.toInt b.toInt v.toInt := by
  rw [apply_eq, ← exact_eq_ok_iff]
  cases op.exact a.toInt b.toInt with
  | ok n => rw [Word.ofInt_eq_ok_iff, Except.ok.injEq, eq_comm]
  | error cause =>
    constructor
    · intro h
      cases h
    · intro h
      cases h

/-- A division by zero is told as such, and nothing else is. -/
theorem apply_eq_divisionByZero_iff :
    op.apply a b = .error .divisionByZero ↔ op = .div ∧ b.toInt = 0 := by
  rw [apply_eq]
  cases hexact : op.exact a.toInt b.toInt with
  | error cause =>
    obtain ⟨rfl, hzero⟩ := exact_eq_error_iff.1 hexact
    exact iff_of_true rfl hzero
  | ok n =>
    -- where there is an exact result, the divisor is not zero
    have hnonzero : ¬ (op = .div ∧ b.toInt = 0) := by
      intro hzero
      rw [exact_eq_error_iff.2 ⟨rfl, hzero⟩] at hexact
      cases hexact
    refine iff_of_false (fun h => ?_) hnonzero
    cases (Word.ofInt_eq_error_iff.1 h).1

/-- An operation overflows where its exact result is no word. -/
theorem apply_eq_overflow_iff :
    op.apply a b = .error .overflow ↔ ∃ n, op.Yields a.toInt b.toInt n ∧ ¬ InRange n := by
  simp only [← exact_eq_ok_iff]
  rw [apply_eq]
  cases hexact : op.exact a.toInt b.toInt with
  | ok n => simp [Word.ofInt_eq_error_iff]
  | error cause =>
    obtain ⟨rfl, -⟩ := exact_eq_error_iff.1 hexact
    constructor
    · intro h
      cases h
    · rintro ⟨n, hn, -⟩
      cases hn

/-- There is no other way to fail. -/
theorem fault_of_apply {fault : Fault} (h : op.apply a b = .error fault) :
    fault = .divisionByZero ∨ fault = .overflow := by
  rw [apply_eq] at h
  cases hexact : op.exact a.toInt b.toInt with
  | ok n =>
    rw [hexact] at h
    exact .inr (Word.ofInt_eq_error_iff.1 h).1
  | error cause =>
    obtain ⟨rfl, -⟩ := exact_eq_error_iff.1 hexact
    rw [hexact] at h
    exact .inl (Except.error.inj h).symm

/-- One division of words overflows. -/
theorem apply_div_eq_overflow_iff :
    div.apply a b = .error .overflow ↔ a.toInt = -2147483648 ∧ b.toInt = -1 := by
  rw [apply_eq_overflow_iff, ← not_inRange_tdiv_iff a.inRange]
  constructor
  · rintro ⟨n, ⟨r, hr, hsmall, hsign⟩, hlarge⟩
    rwa [tdiv_eq_of_remainder hr hsmall hsign]
  · intro hlarge
    have hb : b.toInt ≠ 0 := by
      intro hzero
      rw [hzero, Int.tdiv_zero] at hlarge
      exact hlarge (by decide)
    exact ⟨_, yields_tdiv hb, hlarge⟩

/-- Sums and products do not depend on the order, nor do their faults. -/
theorem apply_comm (hop : op = .add ∨ op = .mul) (a b : Word) : op.apply a b = op.apply b a := by
  rcases hop with rfl | rfl
  · rw [apply, apply, Int.add_comm]
  · rw [apply, apply, Int.mul_comm]

/-! ## Signs of quotients -/

theorem Yields.neg_left {a b n : Int} (h : Operator.div.Yields a b n) :
    Operator.div.Yields (-a) b (-n) := by
  obtain ⟨r, rfl, hsmall, hsign⟩ := h
  refine ⟨-r, by ring, by rwa [abs_neg], ?_⟩
  rw [Int.sign_neg, Int.sign_neg]
  exact hsign.imp (fun hr => by rw [hr, neg_zero]) (congrArg Neg.neg)

theorem Yields.neg_right {a b n : Int} (h : Operator.div.Yields a b n) :
    Operator.div.Yields a (-b) (-n) := by
  obtain ⟨r, hr, hsmall, hsign⟩ := h
  exact ⟨r, by rw [hr]; ring, by rwa [abs_neg], hsign⟩

theorem apply_div_neg_left {q : Word} (h : div.apply a b = .ok q) (ha : InRange (-a.toInt))
    (hq : InRange (-q.toInt)) : div.apply (-a) b = .ok (-q) := by
  rw [apply_eq_ok_iff, Word.toInt_neg ha, Word.toInt_neg hq]
  exact (apply_eq_ok_iff.1 h).neg_left

theorem apply_div_neg_right {q : Word} (h : div.apply a b = .ok q) (hb : InRange (-b.toInt))
    (hq : InRange (-q.toInt)) : div.apply a (-b) = .ok (-q) := by
  rw [apply_eq_ok_iff, Word.toInt_neg hb, Word.toInt_neg hq]
  exact (apply_eq_ok_iff.1 h).neg_right

/-- What an operator does with two words. -/
structure Checks (op : Operator) (a b : Word) : Prop where
  /-- It gives the word of the exact result, and no other. -/
  ok : ∀ v : Word, op.apply a b = .ok v ↔ op.Yields a.toInt b.toInt v.toInt
  divisionByZero : op.apply a b = .error .divisionByZero ↔ op = .div ∧ b.toInt = 0
  /-- The exact result, which there is, is no word. -/
  overflow : op.apply a b = .error .overflow ↔ ∃ n, op.Yields a.toInt b.toInt n ∧ ¬ InRange n
  /-- Whatever does not succeed fails in one of these two ways. -/
  fails : ∀ fault, op.apply a b = .error fault → fault = .divisionByZero ∨ fault = .overflow

/-- An operation on words is exact: it gives the word of the exact result if there is one. Else it
fails, by a division by zero where the divisor is zero, and by overflow in all other cases; for a
division that is the least word by minus one. So sums and products are the same in either order,
their faults included, and a quotient takes the sign of its operands where all of these are
words. -/
theorem operations_exact (op : Operator) (a b : Word) :
    op.Checks a b ∧
    (div.apply a b = .error .overflow ↔ a.toInt = -2147483648 ∧ b.toInt = -1) ∧
    (op = .add ∨ op = .mul → op.apply a b = op.apply b a) ∧
    ∀ q : Word, div.apply a b = .ok q → InRange (-q.toInt) →
      (InRange (-a.toInt) → div.apply (-a) b = .ok (-q)) ∧
        (InRange (-b.toInt) → div.apply a (-b) = .ok (-q)) := by
  refine ⟨⟨fun v => apply_eq_ok_iff, apply_eq_divisionByZero_iff, apply_eq_overflow_iff,
    fun fault => fault_of_apply⟩, apply_div_eq_overflow_iff, fun hop => apply_comm hop a b,
    fun q h hq => ⟨fun ha => apply_div_neg_left h ha hq, fun hb => apply_div_neg_right h hb hq⟩⟩

/-- Rounding is toward zero, whichever of the operands has the sign. -/
theorem operations_exact_rounding :
    div.apply 7 2 = .ok 3 ∧ InRange (-7) ∧ InRange (-2) ∧ InRange (-3) ∧
      div.apply (-7) 2 = .ok (-3) ∧ div.apply 7 (-2) = .ok (-3) ∧
      mul.apply 65536 32768 = mul.apply 32768 65536 := by
  have hquotient : div.apply 7 2 = .ok 3 := by decide +kernel
  have hseven : InRange (-(7 : Word).toInt) := by decide +kernel
  have htwo : InRange (-(2 : Word).toInt) := by decide +kernel
  have hthree : InRange (-(3 : Word).toInt) := by decide +kernel
  obtain ⟨hleft, hright⟩ := (operations_exact .div 7 2).2.2.2 3 hquotient hthree
  exact ⟨hquotient, by decide, by decide, by decide, hleft hseven, hright htwo,
    (operations_exact .mul 65536 32768).2.2.1 (.inr rfl)⟩

end Operator

end OnePass
