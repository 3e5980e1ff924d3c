import OnePass.Proofs.Words

/-!
# Literals

A literal is a number in decimal digits, with at most one sign in front (`Denotes`). What a digit
counts depends on its place only (`positional`), so zeros in front of the others are no matter, and
neither is how many there are (`positional_zeros`).

The digits of a literal are taken from the left, each behind ten times what came before, and the
range is checked at the end. That is the number which the digits denote by their places
(`ofDigitChars_eq_positional`), so a word is read from the literals that denote an integer in range,
and from no other text (`literals_exact`).
-/

namespace OnePass

/-- The number that decimal digits denote: the last one counts for itself, and each of the others
ten times as much as in the place behind it. -/
def positional : List Char → Nat
  | [] => 0
  | d :: ds => (d.toNat - '0'.toNat) * 10 ^ ds.length + positional ds

/-- The text is a literal that denotes the integer: digits, at least one of them, with at most one
sign in front. -/
inductive Denotes : List Char → Int → Prop where
  | unsigned {ds : List Char} (h : Digits ds) : Denotes ds (positional ds)
  | plus {ds : List Char} (h : Digits ds) : Denotes ('+' :: ds) (positional ds)
  | minus {ds : List Char} (h : Digits ds) : Denotes ('-' :: ds) (-(positional ds : Int))

/-! ## Places of digits -/

/-- What is computed digit by digit is the value by places. -/
theorem ofDigitChars_eq_positional (ds : List Char) : Nat.ofDigitChars 10 ds 0 = positional ds := by
  induction ds with
  | nil => rfl
  | cons d ds ih =>
    rw [Nat.ofDigitChars_cons, Nat.ofDigitChars_eq_ofDigitChars_zero, ih, positional]
    ring

theorem positional_zeros (n : Nat) (ds : List Char) :
    positional (List.replicate n '0' ++ ds) = positional ds := by
  induction n with
  | zero => rfl
  | succ n ih =>
    rw [List.replicate_succ, List.cons_append, positional, ih]
    simp

theorem Digits.zeros {ds : List Char} (h : Digits ds) (n : Nat) :
    Digits (List.replicate n '0' ++ ds) := by
  refine ⟨List.append_ne_nil_of_right_ne_nil _ h.1, fun d hd => ?_⟩
  rcases List.mem_append.1 hd with hd | hd
  · rw [List.eq_of_mem_replicate hd]
    rfl
  · exact h.2 d hd

namespace Word

/-! ## Reading a literal -/

/-- A magnitude is read from digits, and from nothing else. -/
theorem magnitude?_eq_some_iff {ds : List Char} {n : Nat} :
    magnitude? ds = some n ↔ Digits ds ∧ positional ds = n := by
  have hdigits : (ds ≠ [] ∧ ds.all Char.isDigit = true) ↔ Digits ds :=
    and_congr_right fun _ => List.all_eq_true
  rw [magnitude?, ofDigitChars_eq_positional, Option.ite_none_right_eq_some, Option.some_inj,
    hdigits]

/-- The integer of a literal, given what its sign does to a magnitude. -/
theorem map_magnitude?_eq_some_iff {ds : List Char} {f : Int → Int} {n : Int} :
    (magnitude? ds >>= fun k => pure (k : Int)).map f = some n ↔
      Digits ds ∧ f (positional ds) = n := by
  constructor
  · intro h
    obtain ⟨i, hi, rfl⟩ := Option.map_eq_some_iff.1 h
    obtain ⟨k, hk, hpure⟩ := Option.bind_eq_some_iff.1 hi
    cases hpure
    obtain ⟨hds, rfl⟩ := magnitude?_eq_some_iff.1 hk
    exact ⟨hds, rfl⟩
  · rintro ⟨hds, rfl⟩
    rw [magnitude?_eq_some_iff.2 ⟨hds, rfl⟩]
    rfl

/-- An integer is read from its literals, and from nothing else. -/
theorem integer?_eq_some_iff {text : List Char} {n : Int} :
    integer? text = some n ↔ Denotes text n := by
  constructor
  · intro h
    unfold integer? at h
    -- the first character tells which of the three forms it is
    split at h
    · obtain ⟨hds, rfl⟩ := map_magnitude?_eq_some_iff.1 h
      exact .plus hds
    · obtain ⟨hds, rfl⟩ := map_magnitude?_eq_some_iff.1 h
      exact .minus hds
    · obtain ⟨hds, rfl⟩ := map_magnitude?_eq_some_iff.1 h
      exact .unsigned hds
  · intro h
    cases h with
    | plus hds => exact map_magnitude?_eq_some_iff.2 ⟨hds, rfl⟩
    | minus hds => exact map_magnitude?_eq_some_iff.2 ⟨hds, rfl⟩
    | unsigned hds =>
      rw [integer?_of_digits hds, decimal, String.toList_ofList, ofDigitChars_eq_positional]

/-- A word comes of the integer that it stands for. -/
theorem ofInt_eq_ok_iff {n : Int} {w : Word} : ofInt n = .ok w ↔ w.toInt = n := by
  constructor
  · intro h
    -- out of range there is no word
    by_cases hn : InRange n
    · rw [ofInt_of_inRange hn] at h
      cases h
      exact toInt_ofInt hn
    · rw [ofInt_of_not_inRange hn] at h
      cases h
  · rintro rfl
    exact ofInt_toInt w

/-- A number that is no word overflows, and no other does. -/
theorem ofInt_eq_error_iff {n : Int} {fault : Fault} :
    ofInt n = .error fault ↔ fault = .overflow ∧ ¬ InRange n := by
  by_cases hn : InRange n
  · rw [ofInt_of_inRange hn]
    refine iff_of_false (fun h => ?_) fun h => h.2 hn
    cases h
  · rw [ofInt_of_not_inRange hn, Except.error.injEq, eq_comm]
    exact (and_iff_left hn).symm

/-- A word is read from the literals that denote it. -/
theorem ofText_eq_ok_iff {text : String} {w : Word} :
    ofText text = .ok w ↔ Denotes text.toList w.toInt := by
  rw [← integer?_eq_some_iff, ofText]
  -- a text that denotes nothing has no word
  cases integer? text.toList with
  | none =>
    constructor
    · intro h
      cases h
    · intro h
      cases h
  | some n => rw [ofInt_eq_ok_iff, Option.some_inj, eq_comm]

/-- What is no literal of an integer in range, overflows. -/
theorem ofText_eq_overflow_iff {text : String} :
    ofText text = .error .overflow ↔ ¬ ∃ n, Denotes text.toList n ∧ InRange n := by
  simp only [← integer?_eq_some_iff]
  rw [ofText]
  cases integer? text.toList with
  | none =>
    refine iff_of_true rfl ?_
    rintro ⟨n, hn, -⟩
    cases hn
  | some n => simp [ofInt_eq_error_iff]

/-- Zeros in front of the digits of a literal change nothing in what it denotes. -/
theorem integer?_zeros {sign ds : List Char} (hsign : sign ∈ [[], ['+'], ['-']]) (hds : Digits ds)
    (n : Nat) : integer? (sign ++ (List.replicate n '0' ++ ds)) = integer? (sign ++ ds) := by
  have hzeros := hds.zeros n
  have hmagnitude : magnitude? (List.replicate n '0' ++ ds) = magnitude? ds := by
    rw [magnitude?_eq_some_iff.2 ⟨hzeros, positional_zeros n ds⟩,
      magnitude?_eq_some_iff.2 ⟨hds, rfl⟩]
  simp only [List.mem_cons, List.not_mem_nil, or_false] at hsign
  -- a sign stands in front of the zeros, so it is read first
  rcases hsign with rfl | rfl | rfl
  · simp only [List.nil_append, integer?_of_digits hzeros, integer?_of_digits hds, decimal,
      String.toList_ofList, ofDigitChars_eq_positional, positional_zeros]
  · simp only [List.cons_append, List.nil_append, integer?, hmagnitude]
  · simp only [List.cons_append, List.nil_append, integer?, hmagnitude]

/-- A word is read from its literals, whatever their length, and from no other text: digits with at
most one sign in front, whose integer the word stands for. Every other text overflows, be it no
literal or the literal of an integer out of range. The decimal text of a word is one of its
literals, the least and the greatest word included, and zeros in front of the digits make no
difference. -/
theorem literals_exact :
    (∀ (text : String) (w : Word), ofText text = .ok w ↔ Denotes text.toList w.toInt) ∧
    (∀ text : String, ofText text = .error .overflow ↔
      ¬ ∃ n, Denotes text.toList n ∧ InRange n) ∧
    (∀ w : Word, ofText w.text = .ok w) ∧
    ∀ sign ∈ [[], ['+'], ['-']], ∀ ds : List Char, Digits ds → ∀ n : Nat,
      ofText (String.ofList (sign ++ (List.replicate n '0' ++ ds))) =
        ofText (String.ofList (sign ++ ds)) := by
  refine ⟨fun text w => ofText_eq_ok_iff, fun text => ofText_eq_overflow_iff, fun w => ?_,
    fun sign hsign ds hds n => ?_⟩
  · rw [text, ofText_toString, ofInt_toInt]
  · rw [ofText, ofText, String.toList_ofList, String.toList_ofList, integer?_zeros hsign hds]

/-- The magnitude of the least word is out of range, but with its sign it is not, and zeros in front
of it do not make it larger. -/
theorem literals_exact_least :
    ofText "-2147483648" = .ok (-2147483648) ∧
      ['-'] ∈ [[], ['+'], ['-']] ∧ Digits "2147483648".toList ∧
      ofText (String.ofList (['-'] ++ (List.replicate 3 '0' ++ "2147483648".toList))) =
        ofText (String.ofList (['-'] ++ "2147483648".toList)) := by
  have hsign : ['-'] ∈ [[], ['+'], ['-']] := by decide
  have hdigits : Digits "2147483648".toList := by decide
  exact ⟨literals_exact.2.2.1 (-2147483648), hsign, hdigits,
    literals_exact.2.2.2 _ hsign _ hdigits 3⟩

example : ofText "+2147483648" = .error .overflow ∧ ofText "--1" = .error .overflow ∧
    ofText "-" = .error .overflow ∧ ofText "١" = .error .overflow := by decide +kernel

end Word

end OnePass
