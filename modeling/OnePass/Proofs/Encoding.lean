import Mathlib

/-!
# Texts as bytes

The order of texts is that of their characters, and the bytes of the UTF-8 encoding keep it: where
two characters differ, so do their first bytes, or the six bits in one of the bytes behind these,
and the first difference decides as the characters do (`utf8EncodeChar_append_lt`). So names in the
order of texts are in the order of their bytes (`bytesOf_lt`).
-/

namespace OnePass

/-- The bytes that a text is encoded as. -/
def bytesOf (text : String) : List UInt8 := text.toUTF8.data.toList

/-- The bytes of a text are those of its characters, one behind the other. -/
theorem bytesOf_eq (text : String) :
    bytesOf text = text.toList.flatMap String.utf8EncodeChar := by
  rw [bytesOf, String.toUTF8_eq_toByteArray, ← String.utf8Encode_toList, List.utf8Encode]
  simp

/-! ## One character -/

/-- Two numbers are in the order of their digits to the base 64. -/
theorem sextets_of_lt {v w : Nat} (h : v < w) :
    v / 262144 < w / 262144 ∨ v / 262144 = w / 262144 ∧
      (v / 4096 % 64 < w / 4096 % 64 ∨ v / 4096 % 64 = w / 4096 % 64 ∧
        (v / 64 % 64 < w / 64 % 64 ∨ v / 64 % 64 = w / 64 % 64 ∧ v % 64 < w % 64)) := by
  have hdiv (n : Nat) : n / 4096 = n / 64 / 64 ∧ n / 262144 = n / 64 / 64 / 64 := by
    rw [Nat.div_div_eq_div_mul, Nat.div_div_eq_div_mul]
    exact ⟨rfl, rfl⟩
  rw [(hdiv v).1, (hdiv v).2, (hdiv w).1, (hdiv w).2]
  omega

/-- Small numbers are in the same order as bytes. -/
theorem ofNat_lt_iff {m n : Nat} (hm : m < 256) (hn : n < 256) :
    UInt8.ofNat m < UInt8.ofNat n ↔ m < n := by
  rw [UInt8.lt_iff_toNat_lt, UInt8.toNat_ofNat_of_lt' hm, UInt8.toNat_ofNat_of_lt' hn]

/-- Different numbers are different bytes, if they are small. -/
theorem ofNat_eq_iff {m n : Nat} (hm : m < 256) (hn : n < 256) :
    UInt8.ofNat m = UInt8.ofNat n ↔ m = n := by
  rw [← UInt8.toNat_inj, UInt8.toNat_ofNat_of_lt' hm, UInt8.toNat_ofNat_of_lt' hn]

/-- The bytes of two characters decide like the characters, whatever is behind them. -/
theorem utf8EncodeChar_append_lt {c d : Char} (h : c < d) (s t : List UInt8) :
    String.utf8EncodeChar c ++ s < String.utf8EncodeChar d ++ t := by
  have hlt : c.toNat < d.toNat := h
  have hmax : d.toNat < 1114112 := by
    have hvalid : d.toNat.isValidChar := d.valid
    unfold Nat.isValidChar at hvalid
    omega
  have hsextets := sextets_of_lt hlt
  simp only [String.utf8EncodeChar, Char.toNat_val]
  generalize c.toNat = v at *
  generalize d.toNat = w at *
  -- by the number of bytes: the first byte decides between two numbers, and sextets within one
  split_ifs <;>
    simp (disch := omega) only [List.cons_append, List.nil_append, List.cons_lt_cons_iff,
      ofNat_lt_iff, ofNat_eq_iff, Nat.mod_eq_of_lt] <;>
    omega

/-! ## Whole texts -/

/-- The order of texts is decided by the first character that differs, and there by its bytes. -/
theorem flatMap_utf8EncodeChar_lt {a b : List Char} (h : a < b) :
    a.flatMap String.utf8EncodeChar < b.flatMap String.utf8EncodeChar := by
  induction h with
  | @nil c rest =>
    have hne : String.utf8EncodeChar c ≠ [] := String.utf8EncodeChar_ne_nil
    obtain ⟨byte, bytes, hbytes⟩ := List.exists_cons_of_ne_nil hne
    rw [List.flatMap_nil, List.flatMap_cons, hbytes]
    exact List.nil_lt_cons _ _
  | rel hlt => exact utf8EncodeChar_append_lt hlt _ _
  | cons _ ih => exact List.append_left_lt ih

/-- The encoding keeps the order of texts. -/
theorem bytesOf_lt {a b : String} (h : a < b) : bytesOf a < bytesOf b := by
  rw [bytesOf_eq, bytesOf_eq]
  exact flatMap_utf8EncodeChar_lt (String.lt_iff_toList_lt.1 h)

end OnePass
