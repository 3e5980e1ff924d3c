import Mathlib.Logic.Relation
import OnePass.Proofs.Reading.Soundness

/-!
# Round by round

A program is read in rounds: a statement, the end of its line if there is one, and a look at what
comes next. Unless that is the `;`, the next round begins there. So a program has one of three
things to do where a statement begins (`round_cases`), and what comes of it is decided in the last
round that is reached: it fails where a statement fails (`program_eq_error_iff`), and it ends well
where a statement has a `;` behind it (`program_eq_ok_iff`).
-/

namespace OnePass.Grammar

variable {σ α : Type} {m : Clocked σ α} {p p' q : Progress σ} {fault : Fault}

/-- A statement and the end of its line were read between the two places. -/
def StatementLine (m : Clocked σ α) (p q : Progress σ) : Prop :=
  ∃ r seen, statement m p = .ok () r ∧ scan Lexeme.lineEnd r = .ok seen q

/-- What a program does behind the line of a statement: it ends at a `;`, and else goes on. -/
def goOn (m : Clocked σ α) (p : Progress σ) : EStateM.Result Fault (Progress σ) Unit :=
  if p.cursor.isAt ';' then .ok () p else program m p

theorem goOn_eq_ok (h : p.cursor.isAt ';' = true) : goOn m p = .ok () p := if_pos h

/-- Without a `;` at hand the program goes on. -/
theorem goOn_eq_program (h : p.cursor.isAt ';' = false) : goOn m p = program m p :=
  if_neg (by simp [h])

/-- At the end of the text there is no statement. -/
theorem program_of_end (h : p.cursor.unread = []) :
    program m p = .error (p.cursor.missing "Name") p := by
  rw [program, withBound, Progress.left, h]
  rfl

/-- One round: where the line of the statement ends, the next statement begins. -/
def Round (m : Clocked σ α) (p p' : Progress σ) : Prop :=
  StatementLine m p p' ∧ p'.cursor.isAt ';' = false

/-- So many rounds, or none, lead from one place to the other. -/
abbrev Rounds (m : Clocked σ α) : Progress σ → Progress σ → Prop := Relation.ReflTransGen (Round m)

/-! ## One round -/

/-- The end of a line is never missed. -/
theorem exists_scan_lineEnd (q : Progress σ) :
    ∃ seen c, scan Lexeme.lineEnd q = .ok seen { q with cursor := c } := by
  unfold scan Lexeme.lineEnd
  split
  · next seen c hlexeme => exact ⟨seen, c, rfl⟩
  · next fault c hlexeme =>
    split at hlexeme <;> cases hlexeme

/-- A statement that fails ends the program. -/
theorem program_of_statement_error (h : statement m p = .error fault q) :
    program m p = .error fault q := by
  rw [program_eq, bind_apply, h]

/-- Behind the line of a statement a program ends or goes on. -/
theorem program_of_line (h : StatementLine m p p') : program m p = goOn m p' := by
  obtain ⟨r, seen, hstatement, hline⟩ := h
  conv_lhs => rw [program_eq]
  rw [bind_apply, hstatement]
  show (scan Lexeme.lineEnd >>= _) r = _
  rw [bind_apply, hline]
  show (cursor >>= _) p' = _
  rw [cursor_bind_apply, goOn]
  cases p'.cursor.isAt ';' <;> rfl

/-- Behind a round stands the same program. -/
theorem Round.program_eq (h : Round m p p') : program m p = program m p' := by
  rw [program_of_line h.1, goOn_eq_program h.2]

/-- Where a statement begins, it fails, or the program ends behind it, or a round leads on. -/
theorem round_cases (m : Clocked σ α) (p : Progress σ) :
    (∃ fault q, statement m p = .error fault q) ∨
      (∃ q, StatementLine m p q ∧ q.cursor.isAt ';' = true) ∨ ∃ p', Round m p p' := by
  cases hstatement : statement m p with
  | error fault q => exact .inl ⟨fault, q, rfl⟩
  | ok _ r =>
    obtain ⟨seen, c, hline⟩ := exists_scan_lineEnd r
    have hread : StatementLine m p { r with cursor := c } := ⟨r, seen, hstatement, hline⟩
    -- whether the line was the last one
    cases hat : c.isAt ';' with
    | true => exact .inr (.inl ⟨_, hread, hat⟩)
    | false => exact .inr (.inr ⟨_, hread, hat⟩)

/-- Every round consumes something. -/
theorem StatementLine.left_lt (h : StatementLine m p q) : q.left < p.left := by
  obtain ⟨r, seen, hstatement, hline⟩ := h
  have hconsumed := consumes_statementWithin m p.left hstatement
  have hrest := consumes_lineEnd hline
  omega

/-! ## Whole programs -/

theorem Rounds.program_eq (h : Rounds m p p') : program m p = program m p' := by
  induction h with
  | refl => rfl
  | tail _ hround ih => rw [ih, hround.program_eq]

/-- Rounds lead to a statement that fails, or that has the `;` behind it. -/
theorem exists_last_round (m : Clocked σ α) (p : Progress σ) :
    ∃ p', Rounds m p p' ∧ ((∃ fault q, statement m p' = .error fault q) ∨
      ∃ q, StatementLine m p' q ∧ q.cursor.isAt ';' = true) := by
  induction hp : p.left using Nat.strongRecOn generalizing p with
  | ind k ih =>
    rcases round_cases m p with hfails | hends | ⟨p₁, hround⟩
    · exact ⟨p, .refl, .inl hfails⟩
    · exact ⟨p, .refl, .inr hends⟩
    · obtain ⟨p', hrounds, hlast⟩ := ih p₁.left (hp ▸ hround.1.left_lt) p₁ rfl
      exact ⟨p', .head hround hrounds, hlast⟩

/-- A program fails where rounds lead to a statement that fails. -/
theorem program_eq_error_iff :
    program m p = .error fault q ↔
      ∃ p', Rounds m p p' ∧ statement m p' = .error fault q := by
  constructor
  · intro h
    -- the last round is the one that failed, for a program that is not at its end has not stopped
    obtain ⟨p', hrounds, ⟨fault', q', hstatement⟩ | ⟨q', hline, hat⟩⟩ := exists_last_round m p
    · rw [hrounds.program_eq, program_of_statement_error hstatement] at h
      cases h
      exact ⟨p', hrounds, hstatement⟩
    · rw [hrounds.program_eq, program_of_line hline, goOn_eq_ok hat] at h
      cases h
  · rintro ⟨p', hrounds, hstatement⟩
    rw [hrounds.program_eq, program_of_statement_error hstatement]

/-- A program ends well where rounds lead to a statement with the `;` behind it. -/
theorem program_eq_ok_iff :
    program m p = .ok () q ↔
      ∃ p', Rounds m p p' ∧ StatementLine m p' q ∧ q.cursor.isAt ';' = true := by
  constructor
  · intro h
    -- the last round is the one at the end, for no statement has failed
    obtain ⟨p', hrounds, ⟨fault', q', hstatement⟩ | ⟨q', hline, hat⟩⟩ := exists_last_round m p
    · rw [hrounds.program_eq, program_of_statement_error hstatement] at h
      cases h
    · rw [hrounds.program_eq, program_of_line hline, goOn_eq_ok hat] at h
      cases h
      exact ⟨p', hrounds, hline, hat⟩
  · rintro ⟨p', hrounds, hline, hat⟩
    rw [hrounds.program_eq, program_of_line hline, goOn_eq_ok hat]

end OnePass.Grammar
