import OnePass.Proofs.Acceptance

/-!
# What productions are made of

All productions are made of the same few parsers, put together in the same two ways: one behind
another, or one chosen by the character at hand (`Formed`). What all of these keep, a program keeps
(`formed_program`), so a property of all runs is shown by induction over the formation of a parser
and not over the grammar.

A production that recurses is formed for every bound on its depth; the bound itself, which depends
on how much of the text is left, is no matter of the formation.
-/

namespace OnePass

/-! ## The character at hand -/

/-- What a character is to the grammar: a letter is the same in either case, and a line ends at
either of the characters that end one. -/
def shapeOf (c : Char) : Char := if c = '\r' then '\n' else c.toUpper

/-- A character that can only be read as itself: no blank, no letter, no digit, no line end. -/
def isSymbol (c : Char) : Bool := !(isBlank c || c.isAlphanum || c = '\r' || c = '\n')

/-- Only letters have an upper case of their own. -/
theorem toUpper_of_not_isAlpha {c : Char} (h : c.isAlpha = false) : c.toUpper = c := by
  unfold Char.toUpper
  split
  · next hlower =>
    have hc : c.isLower = true := by simpa [Char.isLower] using hlower
    simp [Char.isAlpha, hc] at h
  · rfl

theorem isAlpha_toUpper (c : Char) : c.toUpper.isAlpha = c.isAlpha := by
  cases h : c.isAlpha with
  | true =>
    have hupper := isUpper_toUpper h
    simp [Char.isAlpha, hupper]
  | false => rw [toUpper_of_not_isAlpha h, h]

/-- A character and its shape are both letters, or neither is. -/
theorem isAlpha_shapeOf (c : Char) : (shapeOf c).isAlpha = c.isAlpha := by
  unfold shapeOf
  split
  · next h => subst h; decide
  · exact isAlpha_toUpper c

/-- Only the symbol itself looks like a symbol. -/
theorem shapeOf_eq_iff {c x : Char} (hx : isSymbol x = true) : shapeOf c = x ↔ c = x := by
  simp only [isSymbol, Char.isAlphanum, Bool.not_eq_true', Bool.or_eq_false_iff] at hx
  obtain ⟨⟨⟨-, halpha, -⟩, hcr⟩, hlf⟩ := hx
  have hcr' : x ≠ '\r' := by simpa using hcr
  have hlf' : x ≠ '\n' := by simpa using hlf
  constructor
  · intro h
    -- a letter would look like a letter, and a line end like a line feed
    have hc : c.isAlpha = false := by rw [← isAlpha_shapeOf, h, halpha]
    unfold shapeOf at h
    split at h
    · exact absurd h.symm hlf'
    · rw [← h, toUpper_of_not_isAlpha hc]
  · rintro rfl
    rw [shapeOf, if_neg hcr', toUpper_of_not_isAlpha halpha]

/-- The operators are symbols. -/
theorem isSymbol_toChar (op : Operator) : isSymbol op.toChar = true := by
  cases op <;> decide

namespace Cursor

variable {c c' : Cursor}

/-- What stands at hand, as far as the grammar can tell. -/
def shape? (cursor : Cursor) : Option Char := cursor.look.map shapeOf

/-- Cursors at the same character are at the same shape. -/
theorem shape?_congr (h : c.look = c'.look) : c.shape? = c'.shape? := by
  rw [shape?, shape?, h]

/-- A symbol is its own shape, so the shape tells whether it is at hand. -/
theorem isAt_iff (c : Cursor) {x : Char} (hx : isSymbol x = true) :
    c.isAt x = true ↔ c.shape? = some x := by
  rw [isAt, decide_eq_true_eq, shape?, Option.map_eq_some_iff]
  constructor
  · intro h
    exact ⟨x, h, (shapeOf_eq_iff hx).2 rfl⟩
  · rintro ⟨y, h, hy⟩
    rw [h, (shapeOf_eq_iff hx).1 hy]

/-- Cursors at the same shape are at the same symbols. -/
theorem isAt_congr (h : c.shape? = c'.shape?) (x : Char) (hx : isSymbol x = true := by decide) :
    c.isAt x = c'.isAt x := by
  rw [Bool.eq_iff_iff, isAt_iff c hx, isAt_iff c' hx, h]

theorem isAtLetter_congr (h : c.shape? = c'.shape?) : c.isAtLetter = c'.isAtLetter := by
  have hshape (c : Cursor) : c.isAtLetter = c.shape?.any Char.isAlpha := by
    rw [isAtLetter, shape?]
    cases c.look with
    | none => rfl
    | some x => exact (isAlpha_shapeOf x).symm
  rw [hshape, hshape, h]

/-- An operator is at hand if its character is. -/
theorem operator?_eq_some_iff {op : Operator} :
    c.operator? = some op ↔ c.shape? = some op.toChar := by
  rw [← isAt_iff c (isSymbol_toChar op), isAt, decide_eq_true_eq, operator?,
    Option.bind_eq_some_iff]
  simp [Operator.ofChar?_eq_some_iff]

/-- Cursors at the same shape are at the same operator. -/
theorem operator?_congr (h : c.shape? = c'.shape?) : c.operator? = c'.operator? := by
  apply Option.ext
  intro op
  rw [operator?_eq_some_iff, operator?_eq_some_iff, h]

theorem isAtAdditive_congr (h : c.shape? = c'.shape?) : c.isAtAdditive = c'.isAtAdditive := by
  rw [isAtAdditive, isAtAdditive, operator?_congr h]

end Cursor

namespace Grammar

variable {σ α β : Type}

/-- The parsers that can be formed for a semantics. What is chosen depends on the shape of the
character at hand. A step is handed over by an action that differs from it in the form of the answer
only, and subroutine calls only where there are calls. -/
inductive Formed (m : Clocked σ α) : {β : Type} → Parser σ β → Prop where
  | pure {β : Type} (b : β) : Formed m (pure b)
  | missing {β : Type} (what : String) : Formed m (missing what : Parser σ β)
  | symbol (c : Char) (hc : isSymbol c = true := by decide) : Formed m (scan (Lexeme.symbol c))
  | letter : Formed m (scan Lexeme.letter)
  | digits : Formed m (scan Lexeme.digits)
  | lineEnd : Formed m (scan Lexeme.lineEnd)
  | act {β : Type} (step : Step α) {f : β → Option α} {action : Action σ β}
      (hcall : step.isCall = true → m.calls = true) (hf : Function.Injective f)
      (h : m.perform step = f <$> action) : Formed m (act m action)
  | cursor {β : Type} {f : Cursor → Parser σ β} (hf : ∀ c, Formed m (f c))
      (hlook : ∀ c c' : Cursor, c.shape? = c'.shape? → f c = f c') : Formed m (cursor >>= f)
  | bind {β γ : Type} {x : Parser σ β} {f : β → Parser σ γ} (hx : Formed m x)
      (hf : ∀ b, Formed m (f b)) : Formed m (x >>= f)

variable {m : Clocked σ α}

/-- A step that is no call. -/
theorem formed_act {action : Action σ β} {f : β → Option α} (step : Step α)
    (h : m.perform step = f <$> action) (hcall : step.isCall = false := by rfl)
    (hf : Function.Injective f := by
      first | exact Option.some_injective _ | exact Function.injective_of_subsingleton _) :
    Formed m (act m action) :=
  .act step (fun hstep => absurd hstep (by simp [hcall])) hf h

/-! ## Productions -/

/-- A chain of formed operands is formed. Induction on its bound. -/
theorem formed_chainWithin (level : Operator → Bool) {operand : Parser σ α}
    (h : Formed m operand) (n : Nat) (lhs : α) : Formed m (chainWithin m level operand n lhs) := by
  induction n generalizing lhs with
  | zero => exact .pure lhs
  | succ n ih =>
    -- the choice depends on the character at hand and on nothing else
    refine .cursor (fun c => ?_) fun c c' hlook => by simp only [Cursor.operator?_congr hlook]
    split
    · exact .pure lhs
    · next op _ =>
      refine (formed_act (.hold lhs) rfl).bind fun held => ?_
      refine (Formed.symbol _ (isSymbol_toChar op)).bind fun _ => h.bind fun rhs => ?_
      exact (formed_act (.combine op held rhs) rfl).bind ih

/-- A term is a factor with a chain behind it. -/
theorem formed_termWithin {factor : Parser σ α} (h : Formed m factor) (n : Nat) :
    Formed m (termWithin m factor n) :=
  h.bind fun lhs => formed_chainWithin _ h n lhs

/-- An expression is a term with a chain behind it, or a sign with a zero in front. -/
theorem formed_expressionWithin {factor : Parser σ α} (h : Formed m factor) (n : Nat) :
    Formed m (expressionWithin m factor n) := by
  have hterm := formed_termWithin h n
  refine .cursor (fun c => ?_) fun c c' hlook => by
    simp only [Cursor.isAtAdditive_congr hlook]
  split
  · exact (formed_act .zero rfl).bind fun lhs => formed_chainWithin _ hterm n lhs
  · exact hterm.bind fun lhs => formed_chainWithin _ hterm n lhs

/-- What follows the name in a reference. -/
theorem formed_named (name : String) : Formed m (do
    if m.calls && (← cursor).isAt '(' then
      scan (Lexeme.symbol '(')
      scan (Lexeme.symbol ')')
      act m (m.call name)
    else
      act m (m.load name)) := by
  refine .cursor (fun c => ?_) fun c c' hlook => by simp only [Cursor.isAt_congr hlook '(']
  split
  · next hcalls =>
    refine (Formed.symbol _).bind fun _ => (Formed.symbol _).bind fun _ => ?_
    -- a call is tried only where there are calls
    exact .act (.call name) (fun _ => (Bool.and_eq_true_iff.1 hcalls).1)
      (Option.some_injective _) rfl
  · exact formed_act (.load name) rfl

theorem formed_reference : Formed m (reference m) := Formed.letter.bind formed_named

/-- A factor is formed for any bound. Induction on it, for the parentheses. -/
theorem formed_factorWithin (n : Nat) : Formed m (factorWithin m n) := by
  -- on the bound, which an expression in parentheses makes smaller
  induction n with
  | zero => exact .missing _
  | succ n ih =>
    refine .cursor (fun c => ?_) fun c c' hlook => by
      simp only [Cursor.isAt_congr hlook '(', Cursor.isAtLetter_congr hlook]
    split
    · refine (Formed.symbol _).bind fun _ => ?_
      refine (formed_expressionWithin ih n).bind fun value => ?_
      exact (Formed.symbol _).bind fun _ => .pure value
    · split
      · exact formed_reference
      · exact Formed.digits.bind fun digits => formed_act (.number digits) rfl

/-- An assignment is a name, a symbol, an expression and a step. -/
theorem formed_assignmentWithin (n : Nat) : Formed m (assignmentWithin m n) := by
  refine Formed.letter.bind fun name => (Formed.symbol _).bind fun _ => ?_
  refine (formed_expressionWithin (formed_factorWithin n) n).bind fun value => ?_
  exact formed_act (.assign name value) rfl

theorem formed_output : Formed m (output m) :=
  (Formed.symbol _).bind fun _ => Formed.letter.bind fun name => formed_act (.print name) rfl

/-- An input has digits behind its name. -/
theorem formed_input : Formed m (input m) := by
  refine (Formed.symbol _).bind fun _ => Formed.letter.bind fun name => ?_
  refine Formed.digits.bind fun digits => (formed_act (.number digits) rfl).bind fun value => ?_
  exact formed_act (.assign name value) rfl

/-- Which statement comes is decided by the character at hand. -/
theorem formed_statementWithin (n : Nat) : Formed m (statementWithin m n) := by
  refine .cursor (fun c => ?_) fun c c' hlook => by
    simp only [Cursor.isAt_congr hlook '!', Cursor.isAt_congr hlook '?']
  split
  · exact formed_output
  · split
    · exact formed_input
    · exact formed_assignmentWithin n

/-- Whatever the bound is, a program is formed like this. -/
theorem formed_programWithin (n : Nat) : Formed m (programWithin m n) := by
  induction n with
  | zero => exact .missing _
  | succ n ih =>
    refine (formed_statementWithin _).bind fun _ => Formed.lineEnd.bind fun _ => ?_
    refine .cursor (fun c => ?_) fun c c' hlook => by simp only [Cursor.isAt_congr hlook ';']
    split
    · exact .pure ()
    · exact ih

end Grammar

end OnePass
