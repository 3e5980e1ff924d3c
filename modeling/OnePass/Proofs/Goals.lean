import OnePass.Proofs.Reading.Completion

/-!
# Parts of a program on their own

The four things that may be asked for of a text are productions, so what is known of productions
holds of them: they are formed like all others (`formed_parseWithin`) under a bound that is never
felt (`agreeUpTo_parse`), and whether they succeed or fail, they have read the beginning of a text
of their language (`begins_parse`). No such text has a `;` in it, so no parser ever consumes one
(`reads_attempt`).
-/

namespace OnePass.Grammar

variable {σ α β γ : Type} {m : Clocked σ α}

/-! ## Formation -/

/-- A formed parser stays formed when its result is changed. -/
theorem Formed.map {x : Parser σ β} (h : Formed m x) (f : β → γ) : Formed m (f <$> x) := by
  rw [map_eq_pure_bind]
  exact h.bind fun b => .pure (f b)

/-- Parsers that agree still do when their results are changed. -/
theorem AgreeUpTo.map {n : Nat} {x y : Parser σ β} (h : AgreeUpTo n x y) (f : β → γ) :
    AgreeUpTo n (f <$> x) (f <$> y) := by
  intro p hp
  rw [Action.map_apply, Action.map_apply, h hp]

/-- The end of a line, which is required. -/
def requiredLineEnd : Parser σ Unit := do
  unless (← scan Lexeme.lineEnd) do
    missing "NewLine"

theorem assignmentLine_eq (m : Clocked σ α) :
    assignmentLine m = (do
      assignment m
      requiredLineEnd) := rfl

/-- A line end that must be there is looked for, and missed if it is not. -/
theorem formed_requiredLineEnd : Formed m requiredLineEnd := by
  refine Formed.lineEnd.bind fun seen => ?_
  cases seen with
  | true => exact .pure ()
  | false => exact .missing _

/-- A goal of a text with at most that many unread characters. -/
def parseWithin (m : Clocked σ α) (n : Nat) : Goal → Parser σ (Option α)
  | .program => (fun _ => none) <$> programWithin m n
  | .statement => (fun _ => none) <$> statementWithin m n
  | .assignmentLine => (fun _ => none) <$> (do
      assignmentWithin m n
      requiredLineEnd)
  | .expression => some <$> expressionWithin m (factorWithin m n) n

/-- Whatever is asked for is formed. -/
theorem formed_parseWithin (n : Nat) (goal : Goal) : Formed m (parseWithin m n goal) := by
  cases goal with
  | program => exact (formed_programWithin n).map _
  | statement => exact (formed_statementWithin n).map _
  | assignmentLine =>
    exact ((formed_assignmentWithin n).bind fun _ => formed_requiredLineEnd).map _
  | expression => exact (formed_expressionWithin (formed_factorWithin n) n).map _

/-- The bound is not felt on a text that is no longer than it. -/
theorem agreeUpTo_parse (m : Clocked σ α) (goal : Goal) {k n : Nat} (hn : k ≤ n) :
    AgreeUpTo k (parseWithin m n goal) (parse m goal) := by
  cases goal with
  | program => exact (agreeUpTo_program m hn).map _
  | statement => exact (agreeUpTo_statement m hn).map _
  | assignmentLine =>
    -- the line end behind the assignment does not have a bound
    have hline : AgreeUpTo k (do
        assignmentWithin m n
        requiredLineEnd) (assignmentLine m) := by
      rw [assignmentLine_eq]
      exact (agreeUpTo_assignment m hn).bind (consumes_assignmentWithin m n) fun _ => .refl _ _
    exact hline.map _
  | expression => exact (agreeUpTo_expression m hn hn).map _

theorem local_parse (m : Semantics σ α) (goal : Goal) : Local (parse m.timeless goal) := by
  refine Simulated.local (.of_bound (fun n => ?_) fun _ =>
    agreeUpTo_parse m.timeless goal (Nat.le_refl _))
  exact (formed_parseWithin n goal).simulated (timeless_simulates m)

/-! ## What goals read -/

/-- The texts that a goal may read. -/
def Goal.texts (calls : Bool) : Goal → Language Char
  | .program | .assignmentLine => Statements.texts calls
  | .statement => Stmt.texts calls
  | .expression => Expr.texts calls .expression

/-- No goal reads a `;`. -/
theorem Goal.not_mem_of_mem_texts {calls : Bool} {goal : Goal} {t : List Char}
    (h : t ∈ goal.texts calls) : ';' ∉ t := by
  cases goal with
  | program => exact h.choose_spec.not_mem
  | statement => exact h.choose_spec.not_mem
  | assignmentLine => exact h.choose_spec.not_mem
  | expression => exact h.choose_spec.not_mem

/-- What was read does not depend on what is made of it. -/
theorem Begins.map {L : Language Char} {p : Progress σ} {x : Parser σ β}
    (h : Begins L p (x p)) (f : β → γ) : Begins L p ((f <$> x) p) := by
  rw [Action.map_apply]
  cases hx : x p with
  | ok b q =>
    rw [hx] at h
    -- what is made of the answer is no matter to the text
    cases h with
    | ok ht hreads => exact .ok ht hreads
  | error fault q =>
    rw [hx] at h
    cases h with
    | error ht hreads => exact .error ht hreads

/-- One statement and the end of its line are the beginning of a program. -/
theorem begins_assignmentLine (m : Clocked σ α) (p : Progress σ) :
    Begins (Statements.texts m.calls) p (assignmentLine m p) := by
  -- a statement with its line end, or with none, is a text of statements
  have hone {t e : List Char} (ht : t ∈ Stmt.texts m.calls) (he : LineEnd e) :
      t ++ e ∈ Statements.texts m.calls := by
    obtain ⟨s, hs⟩ := ht
    exact ⟨_, .last hs he⟩
  refine (begins_assignment p).bind (fun t ht => ⟨[], hone ht .none⟩) fun t _ q ht _ => ?_
  refine (begins_lineEnd q).bind (fun e he => ⟨[], ?_⟩) fun e seen q' he _ => ?_
  · rw [List.append_nil]
    exact hone ht he
  · have hdone : [] ∈ ((Statements.texts m.calls).leftQuotient t).leftQuotient e := by
      rw [Language.mem_leftQuotient, List.append_nil]
      exact hone ht he
    -- without its line end the text was complete before the fault
    cases seen with
    | true => exact begins_pure hdone () q'
    | false => exact .error (t := []) hdone (Cursor.Reads.refl _)

/-- Each goal reads the beginning of a text of its language, and the whole of one if it succeeds. -/
theorem begins_parse (m : Clocked σ α) (goal : Goal) (p : Progress σ) :
    Begins (goal.texts m.calls) p (parse m goal p) := by
  cases goal with
  | program => exact (begins_program m p).map _
  | statement => exact (begins_statement p).map _
  | assignmentLine => exact (begins_assignmentLine m p).map _
  | expression => exact (begins_construct m .expression p).map _

/-- An attempt leaves off where the parser ended. -/
theorem attempt_snd (m : Clocked σ α) (goal : Goal) (p : Progress σ) :
    (attempt m goal p).2 = Action.ended (parse m goal p) := by
  unfold attempt
  cases parse m goal p <;> rfl

/-- An attempt reads on from where it starts, whatever comes of it, and never over a `;`. -/
theorem reads_attempt (m : Clocked σ α) (goal : Goal) (p : Progress σ) :
    ∃ t, ';' ∉ t ∧ p.cursor.Reads t (attempt m goal p).2.cursor := by
  rw [attempt_snd]
  have hbegins := begins_parse m goal p
  cases hparse : parse m goal p with
  | ok value q =>
    rw [hparse] at hbegins
    cases hbegins with
    | ok ht hreads => exact ⟨_, Goal.not_mem_of_mem_texts ht, hreads⟩
  | error fault q =>
    rw [hparse] at hbegins
    cases hbegins with
    | error ht hreads =>
      -- what was read could go on to a text of the goal, and has no more in it than that text
      have hnot := Goal.not_mem_of_mem_texts ht
      exact ⟨_, fun hmem => hnot (List.mem_append_left _ hmem), hreads⟩

end OnePass.Grammar
