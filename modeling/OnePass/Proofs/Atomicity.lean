import OnePass.Proofs.Evaluation
import OnePass.Proofs.Rounds
import OnePass.Proofs.Truncation

/-!
# All or nothing

Evaluation acts while it reads, so a statement may turn out to be wrong after much of it was
computed. Still a statement is done as a whole or not at all (`statements_atomic`): an expression
changes nothing, whatever comes of it, and of the steps that do change something a statement has
only one, its last. What can be left over from a statement that failed is a part of a line for which
there was no room in the sink (`LineCut`).

All of this holds from any place of any text and for any state, so also where a parser goes on after
a fault.
-/

namespace OnePass

variable {σ α β γ : Type}

/-! ## Expressions have no effects -/

/-- The semantics that does the same but has no effects: assignments and outputs do nothing. -/
def Semantics.withoutEffects (m : Semantics σ α) : Semantics σ α :=
  { m with assign := fun _ _ => pure (), print := fun _ => pure () }

/-- Without effects evaluation leaves its state as it is, also where a step fails. -/
theorem Evaluation.withoutEffects_along : semantics.withoutEffects.timeless.Along (· = ·) where
  refl _ := rfl
  trans h h' := h.trans h'
  step step c s _ := by
    have hexcept (r : Except Fault Word) :
        s = Action.ended ((some <$> Action.ofExcept r : Action _ (Option Word)) s) := by
      rw [Action.ended_map]
      cases r <;> rfl
    cases step with
    | zero => rfl
    | number digits => exact hexcept _
    | load name => rfl
    | call name => rfl
    | hold lhs => rfl
    | combine op lhs rhs => exact hexcept _
    | assign name value => rfl
    | print name => rfl

namespace Grammar

/-- A chain of operands hands over neither assignments nor outputs. -/
theorem chainWithin_withoutEffects (m : Semantics σ α) (level : Operator → Bool)
    (operand : Parser σ α) (n : Nat) (lhs : α) :
    chainWithin m.withoutEffects.timeless level operand n lhs =
      chainWithin m.timeless level operand n lhs := by
  induction n generalizing lhs with
  | zero => rfl
  | succ n ih =>
    simp only [chainWithin, ih]
    rfl

/-- Nor does a factor. The induction is on the bound, since the expression in parentheses is read
with a smaller one. -/
theorem factorWithin_withoutEffects (m : Semantics σ α) (n : Nat) :
    factorWithin m.withoutEffects.timeless n = factorWithin m.timeless n := by
  induction n with
  | zero => rfl
  | succ n ih =>
    simp only [factorWithin, ih, expressionWithin, termWithin, chainWithin_withoutEffects]
    rfl

/-- The productions of an expression hand over neither assignments nor outputs. -/
theorem expression_withoutEffects (m : Semantics σ α) :
    expression m.withoutEffects.timeless = expression m.timeless := by
  funext p
  simp only [expression, withBound, expressionWithin, termWithin, factorWithin_withoutEffects,
    chainWithin_withoutEffects]
  rfl

/-- The parser leaves the state as it is, also when it fails. -/
abbrev Still (x : Parser σ β) : Prop := Moves (· = ·) x

/-- Where it succeeds, the state is the one before. -/
theorem Still.of_ok {x : Parser σ β} (h : Still x) {p q : Progress σ} {b : β}
    (hx : x p = .ok b q) : q.state = p.state := by
  have hp := h p
  rw [hx] at hp
  exact hp.symm

/-- Where it fails, the state is the one before as well. -/
theorem Still.of_error {x : Parser σ β} (h : Still x) {p q : Progress σ} {fault : Fault}
    (hx : x p = .error fault q) : q.state = p.state := by
  have hp := h p
  rw [hx] at hp
  exact hp.symm

/-- A lexeme is read from the cursor, and the state is not looked at. -/
theorem still_scan (lexeme : Scan β) : Still (scan lexeme : Parser σ β) := by
  intro p
  unfold scan
  cases lexeme p.cursor <;> rfl

/-- An expression is evaluated without effects, so with any outcome the state is the one before. -/
theorem still_expression : Still (expression Evaluation.semantics.timeless) := by
  intro p
  rw [← expression_withoutEffects]
  exact (formed_expressionWithin (formed_factorWithin p.left) p.left).moves
    Evaluation.withoutEffects_along p

/-! ## Failures -/

/-- Of two parsers in a row the first fails, or the second does behind it. -/
theorem bind_eq_error {x : Parser σ β} {f : β → Parser σ γ} {p q : Progress σ} {fault : Fault}
    (h : (x >>= f) p = .error fault q) :
    x p = .error fault q ∨ ∃ b p', x p = .ok b p' ∧ f b p' = .error fault q := by
  rw [bind_apply] at h
  split at h
  · next b p' hx => exact .inr ⟨b, p', hx, h⟩
  · next fault' q' hx =>
    cases h
    exact .inl hx

/-- An action that fails leaves the cursor where it was. -/
theorem act_eq_error {m : Semantics σ α} {action : Action σ β} {p q : Progress σ} {fault : Fault}
    (h : act m.timeless action p = .error fault q) :
    q.cursor = p.cursor ∧ action p.state = .error fault q.state := by
  rw [act_timeless_apply] at h
  split at h
  · cases h
  · next fault' s hs =>
    cases h
    exact ⟨rfl, hs⟩

/-- The parser fails before it changes anything. -/
def FailsClean (x : Parser σ β) : Prop := ∀ p fault q, x p = .error fault q → q.state = p.state

/-- What changes nothing may come before what fails clean. -/
theorem Still.bind_clean {x : Parser σ β} {f : β → Parser σ γ} (hx : Still x)
    (hf : ∀ b, FailsClean (f b)) : FailsClean (x >>= f) := by
  intro p fault q h
  rcases bind_eq_error h with hfirst | ⟨b, p', hfirst, hsecond⟩
  · exact hx.of_error hfirst
  · exact (hf b p' fault q hsecond).trans (hx.of_ok hfirst)

/-- To set a variable never fails, so it fails clean. -/
theorem failsClean_assign (name : String) (value : Word) :
    FailsClean (act Evaluation.semantics.timeless (Evaluation.semantics.assign name value)) :=
  fun _ _ _ h => nomatch (act_eq_error h).2

/-- The value of a literal is computed without effects. -/
theorem still_number (digits : String) :
    Still (act Evaluation.semantics.timeless (Evaluation.semantics.number digits)) :=
  (formed_act (m := Evaluation.semantics.withoutEffects.timeless) (.number digits) rfl).moves
    Evaluation.withoutEffects_along

theorem failsClean_input : FailsClean (input Evaluation.semantics.timeless) :=
  (still_scan _).bind_clean fun _ => (still_scan _).bind_clean fun name =>
    (still_scan _).bind_clean fun digits => (still_number digits).bind_clean fun value =>
      failsClean_assign name value

/-- An assignment fails before its variable is set. -/
theorem failsClean_assignment : FailsClean (assignment Evaluation.semantics.timeless) := by
  rw [assignment_eq]
  exact (still_scan _).bind_clean fun name => (still_scan _).bind_clean fun _ =>
    still_expression.bind_clean fun value => failsClean_assign name value

end Grammar

/-! ## Statements -/

/-- The line that shows a variable. -/
def Store.shown (store : Store) (name : String) : String := (store.get name).text ++ "\n"

/-- There was no room for the line that an output was to write, and only a part of it is written. -/
structure LineCut (p q : Progress (Writing Store)) (fault : Fault) : Prop where
  fault : fault = .internal "sink full"
  memory : q.state.memory = p.state.memory
  written : ∃ name t cs more, Stmt.Spelled false (.print name) t ∧ p.cursor.Reads t q.cursor ∧
    (p.state.memory.shown name).toList = cs ++ more ∧ more ≠ [] ∧
    q.state.sink.text = p.state.sink.text ++ String.ofList cs

/-- The statement was done between the two places: an output has written its line and has changed no
variable, and any other statement has written nothing and has set its variable and no other one. -/
def Done (p q : Progress (Writing Store)) : Stmt → Prop
  | .print name => q.state.memory = p.state.memory ∧
    Sink.write (p.state.memory.shown name) p.state.sink = .ok () q.state.sink ∧
    q.state.sink.text = p.state.sink.text ++ p.state.memory.shown name
  | .input name _ | .assign name _ => q.state.sink = p.state.sink ∧
    (∃ value, q.state.memory = p.state.memory.set name value) ∧
    ∀ other, other ≠ name → q.state.memory.get other = p.state.memory.get other

namespace Grammar

variable {p q : Progress (Writing Store)} {fault : Fault}

/-- An output fails before it writes, or while it writes its line. -/
theorem output_of_error (h : output Evaluation.semantics.timeless p = .error fault q) :
    q.state = p.state ∨ LineCut p q fault := by
  rcases bind_eq_error h with hsymbol | ⟨_, p₁, hsymbol, h⟩
  · exact .inl ((still_scan _).of_error hsymbol)
  have hstate₁ := (still_scan _).of_ok hsymbol
  rcases bind_eq_error h with hname | ⟨name, p₂, hname, h⟩
  · exact .inl (((still_scan _).of_error hname).trans hstate₁)
  have hstate₂ := (still_scan _).of_ok hname
  obtain ⟨hcursor, hprint⟩ := act_eq_error h
  obtain ⟨u, hu, hreads₁⟩ := Lexeme.reads_of_symbol (scan_eq_ok hsymbol).1
  obtain ⟨x, w, hx, rfl, hw, hreads₂⟩ := Lexeme.reads_of_letter (scan_eq_ok hname).1
  rw [hstate₂, hstate₁] at hprint
  have hwrite : Writing.write (p.state.memory.shown (nameOf x)) p.state = .error fault q.state :=
    hprint
  -- both lexemes are read, so it was the sink that failed
  unfold Writing.write at hwrite
  rcases Sink.write_cases (p.state.memory.shown (nameOf x)) p.state.sink with
    ⟨sink, hsink, -⟩ | ⟨sink, cs, more, hsink, htext, hline, hmore⟩
  · rw [hsink] at hwrite
    cases hwrite
  · rw [hsink] at hwrite
    obtain ⟨hfault, hstate⟩ := EStateM.Result.error.inj hwrite
    -- the print statement is read up to here, and of its line a part is written
    refine .inr ⟨hfault.symm, ?_, nameOf x, _, cs, more, .print hx hu hw, ?_, hline, hmore, ?_⟩
    · rw [← hstate]
    · rw [hcursor]
      exact hreads₁.trans hreads₂
    · rw [← hstate]
      exact htext

/-- A statement that fails has changed nothing, unless the room for its line was too small. -/
theorem statement_of_error (h : statement Evaluation.semantics.timeless p = .error fault q) :
    q.state = p.state ∨ LineCut p q fault := by
  rw [statement_eq, cursor_bind_apply] at h
  split at h
  · exact output_of_error h
  · split at h
    · exact .inl (failsClean_input p fault q h)
    · exact .inl (failsClean_assignment p fault q h)

/-- What is computed for a variable changes nothing until the variable is set. -/
theorem assigned_of_ok {y : Action (Writing Store) Word} {s s' : Writing Store}
    {r : Except Cause Int} (hy : Computes y s r) {name : String}
    (h : (y >>= Evaluation.semantics.assign name) s = .ok () s') :
    ∃ value, s' = { s with memory := s.memory.set name value } := by
  cases r with
  | ok n =>
    obtain ⟨w, -, hok⟩ := hy
    rw [action_bind_of_ok hok] at h
    cases h
    exact ⟨w, rfl⟩
  | error cause =>
    rw [action_bind_of_error hy.2] at h
    cases h

/-- To set a variable is to leave the sink and all other variables as they are. -/
theorem set_and_no_other {name : String} {value : Word}
    (h : q.state = { p.state with memory := p.state.memory.set name value }) :
    q.state.sink = p.state.sink ∧ (∃ value, q.state.memory = p.state.memory.set name value) ∧
      ∀ other, other ≠ name → q.state.memory.get other = p.state.memory.get other := by
  rw [h]
  refine ⟨rfl, ⟨value, rfl⟩, fun other hother => ?_⟩
  show (p.state.memory.set name value).get other = _
  rw [Store.get_set, if_neg hother]

/-- A statement that succeeds was done. -/
theorem statement_of_ok (h : statement Evaluation.semantics.timeless p = .ok () q) :
    ∃ s t, Stmt.Spelled false s t ∧ p.cursor.Reads t q.cursor ∧ Done p q s := by
  obtain ⟨s, t, hspelled, hreads, hdrive⟩ := statement_recognises h
  refine ⟨s, t, hspelled, hreads, ?_⟩
  have hstore : p.state.memory.Holds fun name => (p.state.memory.get name).toInt := fun _ => rfl
  cases hspelled with
  | @print c u w hc hu hw =>
    have hwrite : Writing.write (p.state.memory.shown (nameOf c)) p.state = .ok () q.state := hdrive
    unfold Writing.write at hwrite
    rcases Sink.write_cases (p.state.memory.shown (nameOf c)) p.state.sink with
      ⟨sink, hsink, htext⟩ | ⟨sink, cs, more, hsink, -⟩
    · rw [hsink] at hwrite
      obtain ⟨-, hstate⟩ := EStateM.Result.ok.inj hwrite
      rw [Done, ← hstate]
      exact ⟨rfl, hsink, htext⟩
    · rw [hsink] at hwrite
      cases hwrite
  | @input c ds u v w hc hds hu hv hw =>
    have hnumber : Computes (Evaluation.semantics.number (String.ofList ds)) p.state _ :=
      (Expr.Spelled.number hds hw).computes hstore
    -- an input and an assignment end with the one step that sets their variable
    exact set_and_no_other (assigned_of_ok hnumber hdrive).choose_spec
  | @assign c e t u v hc hu hv he =>
    exact set_and_no_other (assigned_of_ok (he.computes hstore) hdrive).choose_spec

/-- Where the end of a line is missed, an assignment was done. -/
theorem assignmentLine_of_error
    (h : assignmentLine Evaluation.semantics.timeless p = .error fault q) :
    q.state = p.state ∨ assignment Evaluation.semantics.timeless p = .ok () q ∧
      fault = q.cursor.missing "NewLine" := by
  rcases bind_eq_error h with hassignment | ⟨_, r, hassignment, h⟩
  · exact .inl (failsClean_assignment p fault q hassignment)
  · rcases bind_eq_error h with hline | ⟨seen, r', hline, h⟩
    · obtain ⟨seen, c, hscan⟩ := exists_scan_lineEnd r
      rw [hscan] at hline
      cases hline
    · cases seen with
      | true => cases h
      | false =>
        obtain ⟨rfl, rfl⟩ := EStateM.Result.error.inj h
        obtain ⟨hlexeme, hstate⟩ := scan_eq_ok hline
        -- no line end was there, so nothing was read behind the assignment
        have hsame : r' = r := by
          obtain ⟨c, state⟩ := r'
          obtain rfl : state = r.state := hstate
          obtain rfl : c = r.cursor := Lexeme.eq_of_lineEnd_false hlexeme
          rfl
        exact .inr ⟨hsame ▸ hassignment, rfl⟩

/-- Rounds drive the statements that they read, one after another. -/
theorem Rounds.drive {m : Semantics σ α} {p p' : Progress σ} (h : Rounds m.timeless p p') :
    ∃ statements t, (statements = [] ∧ t = [] ∨ Statements.Spelled m.calls statements t) ∧
      p.cursor.Reads t p'.cursor ∧ driveAll m statements p.state = .ok () p'.state := by
  induction h using Relation.ReflTransGen.head_induction_on with
  | refl => exact ⟨[], [], .inl ⟨rfl, rfl⟩, .refl _, rfl⟩
  | @head p p₁ hround _ ih =>
    obtain ⟨statements, t, hspelled, hreads, hdrive⟩ := ih
    obtain ⟨⟨r, seen, hstatement, hline⟩, -⟩ := hround
    obtain ⟨s, u, hs⟩ := statement_recognises hstatement
    obtain ⟨hlexeme, hstate⟩ := scan_eq_ok hline
    obtain ⟨e, he, hreads'⟩ := Lexeme.reads_of_lineEnd hlexeme
    have hall : driveAll m (s :: statements) p.state = .ok () p'.state := by
      rw [driveAll, action_bind_of_ok hs.drive, ← hstate]
      exact hdrive
    -- whether this statement is the last decides how the text is split
    rcases hspelled with ⟨rfl, rfl⟩ | hspelled
    · refine ⟨[s], u ++ e, .inr (.last hs.spelled he), ?_, hall⟩
      simpa using hs.reads.trans (hreads'.trans hreads)
    · exact ⟨s :: statements, u ++ (e ++ t), .inr (.cons hs.spelled he hspelled),
        hs.reads.trans (hreads'.trans hreads), hall⟩

/-- Evaluation is all or nothing, statement by statement, from any place and any state. A statement
that fails has changed nothing, but for the part of a line that there was room for; one that
succeeds has written its line, or set its variable. An expression changes nothing at all. The line
of an assignment can fail behind an assignment that was done, and only because the line does not end
there. So where a program fails, the state is that of the statements that were completed before the
one at fault, but for a part of the last line. -/
theorem statements_atomic (p : Progress (Writing Store)) :
    let m := Evaluation.semantics.timeless
    (∀ fault q, statement m p = .error fault q → q.state = p.state ∨ LineCut p q fault) ∧
      (∀ q, statement m p = .ok () q →
        ∃ s t, Stmt.Spelled false s t ∧ p.cursor.Reads t q.cursor ∧ Done p q s) ∧
      (Action.ended (expression m p)).state = p.state ∧
      (∀ fault q, assignmentLine m p = .error fault q → q.state = p.state ∨
        assignment m p = .ok () q ∧ fault = q.cursor.missing "NewLine") ∧
      ∀ fault q, program m p = .error fault q →
        ∃ p' statements t, statement m p' = .error fault q ∧
          (q.state = p'.state ∨ LineCut p' q fault) ∧
          (statements = [] ∧ t = [] ∨ Statements.Spelled false statements t) ∧
          p.cursor.Reads t p'.cursor ∧
          driveAll Evaluation.semantics statements p.state = .ok () p'.state := by
  refine ⟨fun fault q => statement_of_error, fun q => statement_of_ok, (still_expression p).symm,
    fun fault q => assignmentLine_of_error, fun fault q h => ?_⟩
  -- a program fails in one of its rounds, and all the statements before were done
  obtain ⟨p', hrounds, hstatement⟩ := program_eq_error_iff.1 h
  obtain ⟨statements, t, hspelled, hreads, hdrive⟩ := hrounds.drive
  exact ⟨p', statements, t, hstatement, statement_of_error hstatement, hspelled, hreads, hdrive⟩

/-- The quotient is computed before the `*` is read, and there is no number behind that. -/
example : (Action.ended (program Evaluation.semantics.timeless
    (.start (.ofText "a=6\n!a\na=7/2*;") ⟨{}, {}⟩))).state =
      ⟨{ entries := [("A", 6)] }, { log := [(0, .piece "6\n")] }⟩ := by cbv

end Grammar

end OnePass
