import OnePass.Grammar

/-!
# What parsers consume

A parser that succeeds leaves at most the characters that it found, and one that recognises
something leaves fewer. `Consumes d x` says that `x` consumes at least `d` characters whenever it
succeeds; the amounts of the steps of a parser add up (`Consumes.bind`). A factor and a term consume
at least one character (`consumes_factorWithin`, `consumes_termWithin`), and so does a statement
(`consumes_statementWithin`).
-/

namespace OnePass.Grammar

variable {σ α β : Type}

/-! ## Parsers on a state -/

/-- The second parser goes on where the first one has succeeded, and a failure ends both. -/
theorem bind_apply (x : Parser σ α) (f : α → Parser σ β) (p : Progress σ) :
    (x >>= f) p =
      match x p with
      | .ok a q => f a q
      | .error fault q => .error fault q := by
  simp only [bind, EStateM.bind]
  cases x p <;> rfl

@[simp] theorem pure_apply (a : α) (p : Progress σ) : (pure a : Parser σ α) p = .ok a p := rfl

/-- To look at the cursor changes nothing. -/
@[simp] theorem cursor_bind_apply (f : Cursor → Parser σ β) (p : Progress σ) :
    (cursor >>= f) p = f p.cursor p := rfl

/-! ## Consumption -/

/-- The parser consumes at least `d` characters whenever it succeeds. -/
def Consumes (d : Nat) (x : Parser σ α) : Prop :=
  ∀ ⦃p : Progress σ⦄ ⦃a : α⦄ ⦃q : Progress σ⦄, x p = .ok a q → q.left + d ≤ p.left

/-- Whoever consumes many characters consumes fewer. -/
theorem Consumes.mono {d e : Nat} {x : Parser σ α} (h : Consumes d x) (he : e ≤ d) :
    Consumes e x := by
  intro p a q hq
  have := h hq
  omega

/-- To answer at once consumes nothing. -/
theorem consumes_pure (a : α) : Consumes 0 (pure a : Parser σ α) := by
  rintro p _ _ ⟨⟩
  exact Nat.le_refl _

/-- A parser that never succeeds consumes as much as one likes. -/
theorem consumes_missing (d : Nat) (what : String) :
    Consumes d (missing what : Parser σ α) := by
  rintro p a q ⟨⟩

/-- The amounts of two parsers add up, since the second one has only what the first one left. -/
theorem Consumes.bind {d e : Nat} {x : Parser σ α} {f : α → Parser σ β} (hx : Consumes d x)
    (hf : ∀ a, Consumes e (f a)) : Consumes (d + e) (x >>= f) := by
  intro p b r h
  rw [bind_apply] at h
  split at h
  · next a q hq =>
    have := hx hq
    have := hf a h
    omega
  · cases h

/-- Looking at the cursor consumes nothing. -/
theorem Consumes.cursor_bind {d : Nat} {f : Cursor → Parser σ β} (hf : ∀ c, Consumes d (f c)) :
    Consumes d (cursor >>= f) := by
  intro p b q h
  exact hf _ h

/-- A step of the semantics leaves the text alone. -/
theorem consumes_act (m : Clocked σ α) (action : Action σ β) : Consumes 0 (act m action) := by
  intro p b q h
  unfold act at h
  split at h <;> cases h
  exact Nat.le_refl _

/-! ## Lexemes -/

/-- Blanks are skipped, and nothing comes in for them. -/
theorem length_unread_skipBlanks_le (c : Cursor) :
    c.skipBlanks.unread.length ≤ c.unread.length := by
  rw [Cursor.skipBlanks, Cursor.unread_takeWhile]
  exact (List.dropWhile_sublist _).length_le

/-- A lexeme behind which fewer characters are left consumes at least one. -/
theorem consumes_scan {d : Nat} {lexeme : Scan β}
    (h : ∀ c b c', lexeme c = .ok b c' → c'.unread.length + d ≤ c.unread.length) :
    Consumes d (scan lexeme : Parser σ β) := by
  intro p b q hq
  unfold scan at hq
  split at hq
  · next c hc =>
    cases hq
    exact h _ _ _ hc
  · cases hq

/-- A symbol is one character. -/
theorem consumes_symbol (c : Char) : Consumes 1 (scan (Lexeme.symbol c) : Parser σ Unit) := by
  refine consumes_scan fun cursor b behind h => ?_
  unfold Lexeme.symbol at h
  split at h
  · next hat =>
    cases h
    have hlook : cursor.look = some c := by simpa [Cursor.isAt] using hat
    have := Cursor.length_unread_advance_lt hlook
    have := length_unread_skipBlanks_le cursor.advance
    omega
  · cases h

/-- A name is one character. -/
theorem consumes_letter : Consumes 1 (scan Lexeme.letter : Parser σ String) := by
  refine consumes_scan fun cursor b behind h => ?_
  unfold Lexeme.letter at h
  split at h
  · next c hc =>
    cases h
    have := Cursor.length_unread_advance_lt (Option.filter_eq_some_iff.1 hc).1
    have := length_unread_skipBlanks_le cursor.advance
    omega
  · cases h

/-- A number has one digit at least. -/
theorem consumes_digits : Consumes 1 (scan Lexeme.digits : Parser σ String) := by
  refine consumes_scan fun cursor b behind h => ?_
  unfold Lexeme.digits at h
  split at h
  · cases h
  · next run stop hne hrun =>
    cases h
    have hfst : run = cursor.unread.takeWhile Char.isDigit := by
      rw [← Cursor.takeWhile_fst, hrun]
    have hsnd : stop.unread = cursor.unread.dropWhile Char.isDigit := by
      rw [← Cursor.unread_takeWhile, hrun]
    -- the digits and the rest make up what was there, and there are digits
    have hlen : run.length + stop.unread.length = cursor.unread.length := by
      rw [hfst, hsnd, ← List.length_append, List.takeWhile_append_dropWhile]
    have hpos : 0 < run.length := List.length_pos_iff.2 hne
    have := length_unread_skipBlanks_le stop
    omega

/-- A line end may be absent, so that nothing is consumed. -/
theorem consumes_lineEnd : Consumes 0 (scan Lexeme.lineEnd : Parser σ Bool) := by
  refine consumes_scan fun cursor b behind h => ?_
  -- an advance at the end of the text consumes nothing
  have hadvance (c : Cursor) : c.advance.unread.length ≤ c.unread.length := by
    rw [Cursor.unread_advance, List.length_tail]
    omega
  unfold Lexeme.lineEnd at h
  split at h
  · cases h
    have := hadvance cursor
    have := hadvance cursor.advance
    split
    · have := length_unread_skipBlanks_le cursor.advance.advance
      omega
    · have := length_unread_skipBlanks_le cursor.advance
      omega
  · cases h
    have := length_unread_skipBlanks_le cursor.advance
    have := hadvance cursor
    omega
  · cases h
    exact Nat.le_refl _

/-! ## Productions -/

/-- Operators and operands are repeated, and there may be none of them. -/
theorem consumes_chainWithin (m : Clocked σ α) (level : Operator → Bool) {operand : Parser σ α}
    (h : Consumes 0 operand) (n : Nat) (lhs : α) :
    Consumes 0 (chainWithin m level operand n lhs) := by
  induction n generalizing lhs with
  | zero => exact consumes_pure lhs
  | succ n ih =>
    refine Consumes.cursor_bind fun c => ?_
    split
    · exact consumes_pure lhs
    · exact (consumes_act m _).bind fun held =>
        ((consumes_symbol _).bind fun _ => h.bind fun rhs =>
          (consumes_act m _).bind fun value => ih value).mono (Nat.zero_le _)

/-- A term begins with a factor, and consumes what that does. -/
theorem consumes_termWithin (m : Clocked σ α) {factor : Parser σ α} {d : Nat}
    (h : Consumes d factor) (n : Nat) : Consumes d (termWithin m factor n) :=
  h.bind fun lhs => consumes_chainWithin m _ (h.mono (Nat.zero_le _)) n lhs

/-- An expression may begin with a sign, which is left to the loop that applies it. -/
theorem consumes_expressionWithin (m : Clocked σ α) {factor : Parser σ α}
    (h : Consumes 0 factor) (n : Nat) : Consumes 0 (expressionWithin m factor n) := by
  refine Consumes.cursor_bind fun c => ?_
  have hterm := consumes_termWithin m h n
  split
  · exact (consumes_act m _).bind fun lhs => consumes_chainWithin m _ hterm n lhs
  · exact hterm.bind fun lhs => consumes_chainWithin m _ hterm n lhs

/-- A variable or a call begins with its name. -/
theorem consumes_reference (m : Clocked σ α) : Consumes 1 (reference m) := by
  refine consumes_letter.bind fun name => Consumes.cursor_bind (d := 0) fun c => ?_
  split
  · exact ((consumes_symbol _).bind fun _ => (consumes_symbol _).bind fun _ =>
      consumes_act m _).mono (Nat.zero_le _)
  · exact consumes_act m _

/-- Whatever the bound, a factor is a character at least: a parenthesis, a letter or a digit. -/
theorem consumes_factorWithin (m : Clocked σ α) (n : Nat) : Consumes 1 (factorWithin m n) := by
  -- on the bound: inside parentheses there is a smaller one
  induction n with
  | zero => exact consumes_missing 1 _
  | succ n ih =>
    refine Consumes.cursor_bind fun c => ?_
    split
    · exact ((consumes_symbol _).bind fun _ =>
        (consumes_expressionWithin m (ih.mono (Nat.zero_le _)) n).bind fun value =>
          (consumes_symbol _).bind fun _ => consumes_pure value).mono (by omega)
    · split
      · exact consumes_reference m
      · exact consumes_digits.bind fun digits => consumes_act m _

/-- An assignment begins with its name. -/
theorem consumes_assignmentWithin (m : Clocked σ α) (n : Nat) :
    Consumes 1 (assignmentWithin m n) :=
  (consumes_letter.bind fun name => (consumes_symbol _).bind fun _ =>
    (consumes_expressionWithin m ((consumes_factorWithin m n).mono (Nat.zero_le _)) n).bind
      fun value => consumes_act m _).mono (by omega)

/-- An output begins with its sign. -/
theorem consumes_output (m : Clocked σ α) : Consumes 1 (output m) :=
  ((consumes_symbol _).bind fun _ => consumes_letter.bind fun name =>
    consumes_act m _).mono (by omega)

/-- An input begins with its sign. -/
theorem consumes_input (m : Clocked σ α) : Consumes 1 (input m) :=
  ((consumes_symbol _).bind fun _ => consumes_letter.bind fun name =>
    consumes_digits.bind fun digits => (consumes_act m _).bind fun value =>
      consumes_act m _).mono (by omega)

/-- So a statement of any kind consumes something, and a program makes progress with each. -/
theorem consumes_statementWithin (m : Clocked σ α) (n : Nat) :
    Consumes 1 (statementWithin m n) := by
  refine Consumes.cursor_bind fun c => ?_
  split
  · exact consumes_output m
  · split
    · exact consumes_input m
    · exact consumes_assignmentWithin m n

end OnePass.Grammar
