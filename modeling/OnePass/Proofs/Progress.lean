import OnePass.Proofs.Reading.Completeness

/-!
# What the productions consume

A factor, a term and an expression that succeed consume at least one character, an operation of a
loop consumes an operator and an operand, and a statement consumes two characters
(`consumes_expression`, `consumes_operation`, `consumes_statement`). For an expression this is not
said by its first step: where a sign is at hand, nothing is consumed before the loop begins. At the
end of a text every production fails at once (`factor_of_end` and its companions, `program_of_end`).
-/

namespace OnePass.Grammar

variable {σ α β : Type} {m : Clocked σ α}

/-! ## Loops -/

/-- What the loop of a level does once: it puts the value so far aside, reads the operator at hand
and an operand, and combines the two. -/
def operation (m : Clocked σ α) (level : Level) (op : Operator) (lhs : α) : Parser σ α := do
  let held ← act m (m.hold lhs)
  scan (Lexeme.symbol op.toChar)
  let rhs ← construct m level.operand
  act m (m.combine op held rhs)

/-- The loop of a level makes its operation as long as an operator of the level is at hand. -/
theorem constructAfter_eq_operation (m : Clocked σ α) (level : Level) (lhs : α) :
    constructAfter m level lhs = (do
      match (← cursor).operator?.filter level.admits with
      | none => pure lhs
      | some op =>
        let value ← operation m level op lhs
        constructAfter m level value) := by
  rw [constructAfter_eq]
  -- the two sides differ only in how the steps of one round are put together
  funext p
  rw [cursor_bind_apply, cursor_bind_apply]
  cases p.cursor.operator?.filter level.admits with
  | none => rfl
  | some op => simp only [operation, bind_assoc]

/-! ## Consumption -/

/-- What is consumed under every bound is consumed. -/
theorem consumes_withBound {d : Nat} {x : Nat → Parser σ β} (h : ∀ n, Consumes d (x n)) :
    Consumes d (withBound x) :=
  fun p _ _ hq => h p.left hq

/-- A factor consumes a character. -/
theorem consumes_factor (m : Clocked σ α) : Consumes 1 (factor m) :=
  consumes_withBound (consumes_factorWithin m)

/-- So does a term, by its first factor. -/
theorem consumes_term (m : Clocked σ α) : Consumes 1 (term m) :=
  consumes_withBound fun n => consumes_termWithin m (consumes_factorWithin m n) n

/-- An operation consumes the operator and an operand. -/
theorem consumes_operation (m : Clocked σ α) (level : Level) (op : Operator) (lhs : α) :
    Consumes 2 (operation m level op lhs) := by
  have hoperand : Consumes 1 (construct m level.operand) := by
    cases level with
    | expression => exact consumes_term m
    | term => exact consumes_factor m
    | factor => exact consumes_factor m
  exact ((consumes_act m _).bind fun held => (consumes_symbol _).bind fun _ =>
    hoperand.bind fun rhs => consumes_act m _).mono (by omega)

/-- A loop may consume nothing. -/
theorem consumes_constructAfter (m : Clocked σ α) (level : Level) (lhs : α) :
    Consumes 0 (constructAfter m level lhs) := by
  cases level with
  | expression =>
    exact consumes_withBound fun n =>
      consumes_chainWithin m _ (consumes_termWithin m (consumes_zero_factorWithin m n) n) n lhs
  | term =>
    exact consumes_withBound fun n =>
      consumes_chainWithin m _ (consumes_zero_factorWithin m n) n lhs
  | factor => exact consumes_pure lhs

/-- A loop that finds an operator makes an operation. -/
theorem left_of_constructAfter {level : Level} {op : Operator} {p q : Progress σ} {lhs value : α}
    (hop : p.cursor.operator?.filter level.admits = some op)
    (h : constructAfter m level lhs p = .ok value q) : q.left + 2 ≤ p.left := by
  rw [constructAfter_eq_operation, cursor_bind_apply, hop] at h
  exact ((consumes_operation m level op lhs).bind (consumes_constructAfter m level)) h

/-- A step does not move the cursor. -/
theorem cursor_of_act {action : Action σ β} {p q : Progress σ} {b : β}
    (h : act m action p = .ok b q) : q.cursor = p.cursor := by
  unfold act at h
  split at h <;> cases h
  rfl

/-- Where a sign is at hand, a sum has an operator at hand. -/
theorem operator?_of_isAtAdditive {c : Cursor} (h : c.isAtAdditive = true) :
    ∃ op, c.operator?.filter Level.expression.admits = some op := by
  rw [Cursor.isAtAdditive, Option.any_eq_true] at h
  obtain ⟨op, hop, hadmits⟩ := h
  exact ⟨op, Option.filter_eq_some_iff.2 ⟨hop, hadmits⟩⟩

/-- The zero in front of a sign consumes nothing, but the sign is the operator of an operation. -/
theorem consumes_expression (m : Clocked σ α) : Consumes 1 (expression m) := by
  intro p value q h
  rw [expression_eq, cursor_bind_apply] at h
  cases hsign : p.cursor.isAtAdditive with
  | true =>
    obtain ⟨op, hop⟩ := operator?_of_isAtAdditive hsign
    rw [hsign, if_pos rfl, bind_apply] at h
    split at h
    · next lhs r hzero =>
      rw [← cursor_of_act hzero] at hop
      change constructAfter m .expression lhs r = .ok value q at h
      -- the zero in front consumes nothing, but then the loop has the sign to consume
      have hloop : q.left + 2 ≤ r.left := left_of_constructAfter hop h
      have hact := consumes_act m m.zero hzero
      omega
    · cases h
  | false =>
    rw [hsign] at h
    exact ((consumes_term m).bind (consumes_constructAfter m .expression)) h

/-! ## Statements -/

/-- An assignment consumes its name, its `=` and a character of its expression. -/
theorem consumes_assignment (m : Clocked σ α) : Consumes 3 (assignment m) := by
  rw [assignment_eq]
  exact consumes_letter.bind fun name => (consumes_symbol _).bind fun _ =>
    (consumes_expression m).bind fun value => consumes_act m _

/-- A statement consumes two characters at least, as an output does. -/
theorem consumes_statement (m : Clocked σ α) : Consumes 2 (statement m) := by
  -- a sign and a name, and digits behind them in an input
  have houtput : Consumes 2 (output m) :=
    (consumes_symbol _).bind fun _ => consumes_letter.bind fun name => consumes_act m _
  have hinput : Consumes 3 (input m) :=
    (consumes_symbol _).bind fun _ => consumes_letter.bind fun name =>
      consumes_digits.bind fun digits => (consumes_act m _).bind fun value => consumes_act m _
  rw [statement_eq]
  refine Consumes.cursor_bind fun here => ?_
  split
  · exact houtput
  · split
    · exact hinput.mono (by omega)
    · exact (consumes_assignment m).mono (by omega)

/-! ## The end of a text -/

section

variable {p : Progress σ} (h : p.left = 0)
include h

theorem factor_of_end : factor m p = missing "Integer" p := factorWithin_of_left_eq_zero m p.left h

theorem term_of_end : term m p = missing "Integer" p := by
  rw [term_eq, bind_apply, factor_of_end h]
  rfl

/-- At the end no sign is at hand, so an expression fails like a term. -/
theorem expression_of_end : expression m p = missing "Integer" p := by
  have hsign : p.cursor.isAtAdditive = false := by
    rw [Cursor.isAtAdditive, Cursor.operator?, look_eq_none h]
    rfl
  rw [expression_eq, cursor_bind_apply, hsign]
  show (term m >>= fun lhs => expressionAfter m lhs) p = _
  rw [bind_apply, term_of_end h]
  rfl

/-- No operator is at hand, so a loop is over. -/
theorem constructAfter_of_end (level : Level) (lhs : α) :
    constructAfter m level lhs p = .ok lhs p := by
  rw [constructAfter_eq, cursor_bind_apply, Cursor.operator?, look_eq_none h]
  rfl

theorem assignment_of_end : assignment m p = missing "Name" p := by
  rw [assignment_eq, bind_apply, scan, Lexeme.letter, look_eq_none h]
  rfl

theorem statement_of_end : statement m p = missing "Name" p :=
  statementWithin_of_left_eq_zero m p.left h

/-- The assignment fails before a line end is looked for. -/
theorem assignmentLine_of_end : assignmentLine m p = missing "Name" p := by
  rw [assignmentLine, bind_apply, assignment_of_end h]
  rfl

end

end OnePass.Grammar
