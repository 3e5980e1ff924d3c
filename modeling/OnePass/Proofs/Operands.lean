import OnePass.Proofs.Goals
import OnePass.Proofs.Independence

/-!
# How operands are written

A step is handed over as soon as its construct has been read, so the names and numbers in it are
lexemes: a name is a letter in upper case, and a number has digits and nothing else
(`Step.Written`). So what all written steps keep, a parser keeps (`keeps_parse`), however it ends.

The log of a run is kept like this: all steps in it are written (`account_written`), and so the
listing of any text, also of one that is no program, is read as the instructions that it is the
listing of (`assemble_compile`).
-/

namespace OnePass

variable {σ α β γ : Type}

/-- The names and numbers of the step are lexemes. -/
def Step.Written : Step α → Prop
  | .number digits => Digits digits.toList
  | .load name | .call name | .assign name _ | .print name => IsName name
  | .zero | .hold _ | .combine _ _ _ => True

/-- The steps of the semantics keep the property of states if they are written, also if they fail. A
subroutine call counts only where there are calls. -/
def Clocked.Keeps (m : Clocked σ α) (P : σ → Prop) : Prop :=
  ∀ (step : Step α) (c : Cursor) (s : σ), step.Written → (step.isCall = true → m.calls = true) →
    P s → P (Action.ended (m.perform step (m.tick c s)))

namespace Grammar

/-- The parser keeps the property of states, also if it fails. -/
def Keeps (P : σ → Prop) (x : Parser σ β) : Prop :=
  ∀ p, P p.state → P (Action.ended (x p)).state

variable {m : Clocked σ α} {P : σ → Prop}

/-! ## What parsers are made of -/

theorem keeps_pure (b : β) : Keeps P (pure b : Parser σ β) := fun _ hp => hp

theorem keeps_missing (what : String) : Keeps P (missing what : Parser σ β) := fun _ hp => hp

/-- To look at the cursor changes no state. -/
theorem Keeps.cursor_bind {f : Cursor → Parser σ β} (h : ∀ c, Keeps P (f c)) :
    Keeps P (cursor >>= f) := fun p => h p.cursor p

/-- One parser behind another. -/
theorem Keeps.bind {x : Parser σ β} {f : β → Parser σ γ} (hx : Keeps P x)
    (hf : ∀ b, Keeps P (f b)) : Keeps P (x >>= f) := by
  intro p hp
  have hkept := hx p hp
  rw [bind_apply]
  cases hxp : x p with
  | error fault q =>
    rw [hxp] at hkept
    exact hkept
  | ok b q =>
    rw [hxp] at hkept
    exact hf b q hkept

/-- A parser keeps what it keeps when its result is changed. -/
theorem Keeps.map {x : Parser σ β} (hx : Keeps P x) (f : β → γ) : Keeps P (f <$> x) := by
  rw [map_eq_pure_bind]
  exact hx.bind fun b => keeps_pure (f b)

/-- What is done with a lexeme may depend on how it is written. -/
theorem Keeps.lexeme_bind {lexeme : Scan β} {f : β → Parser σ γ}
    (h : ∀ b c c', lexeme c = .ok b c' → Keeps P (f b)) : Keeps P (scan lexeme >>= f) := by
  intro p hp
  rw [bind_apply, scan]
  cases hlexeme : lexeme p.cursor with
  | error fault c => exact hp
  | ok b c => exact h b _ _ hlexeme _ hp

/-- A lexeme changes no state, whatever is made of it. -/
theorem Keeps.scan_bind {lexeme : Scan β} {f : β → Parser σ γ} (h : ∀ b, Keeps P (f b)) :
    Keeps P (scan lexeme >>= f) :=
  Keeps.lexeme_bind fun b _ _ _ => h b

/-- A letter is read as a name. -/
theorem Keeps.letter_bind {f : String → Parser σ γ} (h : ∀ name, IsName name → Keeps P (f name)) :
    Keeps P (scan Lexeme.letter >>= f) := by
  refine Keeps.lexeme_bind fun name c c' hletter => h name ?_
  obtain ⟨x, -, hx, hname, -⟩ := Lexeme.reads_of_letter hletter
  exact ⟨x, hx, hname⟩

/-- Digits are read as digits. -/
theorem Keeps.digits_bind {f : String → Parser σ γ}
    (h : ∀ digits : String, Digits digits.toList → Keeps P (f digits)) :
    Keeps P (scan Lexeme.digits >>= f) := by
  refine Keeps.lexeme_bind fun digits c c' hscan => h digits ?_
  obtain ⟨ds, -, hds, rfl, -⟩ := Lexeme.reads_of_digits hscan
  rwa [String.toList_ofList]

/-- A written step keeps what the semantics keeps of written steps. -/
theorem keeps_act (hm : m.Keeps P) (step : Step α) {f : β → Option α} {action : Action σ β}
    (h : m.perform step = f <$> action) (hwritten : step.Written)
    (hcall : step.isCall = true → m.calls = true) : Keeps P (act m action) := by
  intro p hp
  have hstep := hm step p.cursor p.state hwritten hcall hp
  rw [h, Action.ended_map] at hstep
  unfold act
  cases haction : action (m.tick p.cursor p.state) with
  | ok b s => rw [haction] at hstep; exact hstep
  | error fault s => rw [haction] at hstep; exact hstep

/-- A written step that is no call. -/
theorem keeps_step (hm : m.Keeps P) (step : Step α) {f : β → Option α} {action : Action σ β}
    (h : m.perform step = f <$> action) (hwritten : step.Written)
    (hcall : step.isCall = false := by rfl) : Keeps P (act m action) :=
  keeps_act hm step h hwritten fun hstep => absurd hstep (by simp [hcall])

/-! ## Productions -/

/-- A chain puts a value aside and combines it, and both steps are written. Induction on the
bound. -/
theorem keeps_chainWithin (hm : m.Keeps P) (level : Operator → Bool) {operand : Parser σ α}
    (h : Keeps P operand) (n : Nat) (lhs : α) : Keeps P (chainWithin m level operand n lhs) := by
  induction n generalizing lhs with
  | zero => exact keeps_pure lhs
  | succ n ih =>
    refine Keeps.cursor_bind fun c => ?_
    cases c.operator?.filter level with
    | none => exact keeps_pure lhs
    | some op =>
      -- the steps of the loop have no operand that is read
      refine (keeps_step hm (.hold lhs) rfl trivial).bind fun held => Keeps.scan_bind fun _ => ?_
      exact h.bind fun rhs => (keeps_step hm (.combine op held rhs) rfl trivial).bind ih

theorem keeps_termWithin (hm : m.Keeps P) {factor : Parser σ α} (h : Keeps P factor) (n : Nat) :
    Keeps P (termWithin m factor n) := h.bind (keeps_chainWithin hm _ h n)

theorem keeps_expressionWithin (hm : m.Keeps P) {factor : Parser σ α} (h : Keeps P factor)
    (n : Nat) : Keeps P (expressionWithin m factor n) := by
  have hterm := keeps_termWithin hm h n
  have hchain := keeps_chainWithin hm Operator.isAdditive hterm n
  refine Keeps.cursor_bind fun c => ?_
  cases c.isAtAdditive with
  | true => exact (keeps_step hm .zero rfl trivial).bind hchain
  | false => exact hterm.bind hchain

/-- The name of a variable or a call comes from its letter. -/
theorem keeps_reference (hm : m.Keeps P) : Keeps P (reference m) := by
  refine Keeps.letter_bind fun name hname => Keeps.cursor_bind fun c => ?_
  split
  · next hcalls =>
    refine Keeps.scan_bind fun _ => Keeps.scan_bind fun _ => ?_
    exact keeps_act hm (.call name) rfl hname fun _ => (Bool.and_eq_true_iff.1 hcalls).1
  · exact keeps_step hm (.load name) rfl hname

/-- Induction on the bound, for the expression in parentheses. -/
theorem keeps_factorWithin (hm : m.Keeps P) (n : Nat) : Keeps P (factorWithin m n) := by
  -- on the bound, which an expression in parentheses makes smaller
  induction n with
  | zero => exact keeps_missing _
  | succ n ih =>
    refine Keeps.cursor_bind fun c => ?_
    split
    · refine Keeps.scan_bind fun _ => (keeps_expressionWithin hm ih n).bind fun value => ?_
      exact Keeps.scan_bind fun _ => keeps_pure value
    · split
      · exact keeps_reference hm
      · exact Keeps.digits_bind fun digits hdigits => keeps_step hm (.number digits) rfl hdigits

/-- An assignment has its name from the letter in front. -/
theorem keeps_assignmentWithin (hm : m.Keeps P) (n : Nat) : Keeps P (assignmentWithin m n) := by
  refine Keeps.letter_bind fun name hname => Keeps.scan_bind fun _ => ?_
  refine (keeps_expressionWithin hm (keeps_factorWithin hm n) n).bind fun value => ?_
  exact keeps_step hm (.assign name value) rfl hname

/-- An output has its name from the letter behind the `!`. -/
theorem keeps_output (hm : m.Keeps P) : Keeps P (output m) := by
  refine Keeps.scan_bind fun _ => Keeps.letter_bind fun name hname => ?_
  exact keeps_step hm (.print name) rfl hname

/-- An input has a name and digits. -/
theorem keeps_input (hm : m.Keeps P) : Keeps P (input m) := by
  refine Keeps.scan_bind fun _ => Keeps.letter_bind fun name hname => ?_
  refine Keeps.digits_bind fun digits hdigits => ?_
  refine (keeps_step hm (.number digits) rfl hdigits).bind fun value => ?_
  exact keeps_step hm (.assign name value) rfl hname

/-- Whichever statement it is. -/
theorem keeps_statementWithin (hm : m.Keeps P) (n : Nat) : Keeps P (statementWithin m n) := by
  refine Keeps.cursor_bind fun c => ?_
  split
  · exact keeps_output hm
  · split
    · exact keeps_input hm
    · exact keeps_assignmentWithin hm n

/-- Statement by statement, by induction on the bound. -/
theorem keeps_programWithin (hm : m.Keeps P) (n : Nat) : Keeps P (programWithin m n) := by
  induction n with
  | zero => exact keeps_missing _
  | succ n ih =>
    refine (keeps_statementWithin hm _).bind fun _ => Keeps.scan_bind fun _ => ?_
    refine Keeps.cursor_bind fun c => ?_
    split
    · exact keeps_pure ()
    · exact ih

theorem keeps_requiredLineEnd : Keeps P (requiredLineEnd : Parser σ Unit) := by
  refine Keeps.scan_bind fun seen => ?_
  cases seen with
  | true => exact keeps_pure ()
  | false => exact keeps_missing _

theorem keeps_parseWithin (hm : m.Keeps P) (n : Nat) (goal : Goal) :
    Keeps P (parseWithin m n goal) := by
  cases goal with
  | program => exact (keeps_programWithin hm n).map _
  | statement => exact (keeps_statementWithin hm n).map _
  | assignmentLine =>
    exact ((keeps_assignmentWithin hm n).bind fun _ => keeps_requiredLineEnd).map _
  | expression => exact (keeps_expressionWithin hm (keeps_factorWithin hm n) n).map _

/-- What written steps keep, every goal keeps, and whatever comes of it. -/
theorem keeps_parse (hm : m.Keeps P) (goal : Goal) : Keeps P (parse m goal) := by
  intro p hp
  have hkept := keeps_parseWithin hm p.left goal p hp
  rwa [agreeUpTo_parse m goal (Nat.le_refl _) (Nat.le_refl _)] at hkept

end Grammar

/-! ## Logs -/

/-- What came of an action, apart from the state. -/
def Action.answer : EStateM.Result Fault σ β → Except Fault β
  | .ok b _ => .ok b
  | .error fault _ => .error fault

/-- What a step leaves in a state with a log. -/
theorem Clocked.ended_perform_logged (m : Clocked σ α) (step : Step α) (c : Cursor)
    (l : Logged σ α) :
    Action.ended (m.logged.perform step (m.logged.tick c l)) =
      ⟨Action.ended (m.perform step (m.tick c l.state)), c,
        l.calls ++ [⟨c, step, Action.answer (m.perform step (m.tick c l.state))⟩]⟩ := by
  obtain ⟨s, place, log⟩ := l
  cases h : m.perform step (m.tick c s) with
  | ok answer s' => rw [perform_logged_ok h]; rfl
  | error fault s' => rw [perform_logged_error h]; rfl

/-- Every written step, with what comes of it, is a call of the kind. -/
def Clocked.Makes (m : Clocked σ α) (Q : Call α → Prop) : Prop :=
  ∀ (step : Step α) (c : Cursor) (s : σ), step.Written → (step.isCall = true → m.calls = true) →
    Q ⟨c, step, Action.answer (m.perform step (m.tick c s))⟩

/-- So all calls in a log are of the kind. -/
theorem Clocked.Makes.logged_keeps {m : Clocked σ α} {Q : Call α → Prop} (h : m.Makes Q) :
    m.logged.Keeps fun l => ∀ call ∈ l.calls, Q call := by
  intro step c l hwritten hcall hl
  rw [ended_perform_logged]
  exact List.forall_mem_append.2 ⟨hl, List.forall_mem_singleton.2 (h step c l.state hwritten hcall)⟩

/-- What holds of each call as it is made holds of all calls of an account. -/
theorem Clocked.Makes.of_mem_account {m : Clocked σ α} {Q : Call α → Prop} (h : m.Makes Q)
    (source : Source) (state : σ) : ∀ call ∈ (account m source state).calls, Q call := by
  rw [account_calls]
  exact Grammar.keeps_programWithin h.logged_keeps _ (.start source ⟨state, .start source, []⟩)
    (List.forall_mem_nil _)

/-- All steps of the calls are written. -/
def AllWritten (calls : List (Call α)) : Prop := ∀ call ∈ calls, call.step.Written

/-- All steps that a text makes are written. -/
theorem account_written (m : Clocked σ α) (source : Source) (state : σ) :
    AllWritten (account m source state).calls := by
  have hmakes : m.Makes fun call => call.step.Written := fun _ _ _ hwritten _ => hwritten
  exact hmakes.of_mem_account source state

/-! ## Whole programs -/

/-- The code of steps, one after another. -/
def codeOf (calls : List (Call α)) : List Instruction :=
  calls.flatMap fun call => Listing.code call.step

/-- A name is a word. -/
theorem IsName.isWord {name : String} (h : IsName name) : Instruction.IsWord name := by
  obtain ⟨c, hc, rfl⟩ := h
  exact isWord_nameOf hc

/-- Written steps have plain instructions. -/
theorem Step.Written.plain {step : Step α} (h : step.Written) :
    ∀ i ∈ Listing.code step, i.Plain := by
  cases step with
  | zero => exact List.forall_mem_singleton.2 trivial
  | hold lhs => exact List.forall_mem_singleton.2 trivial
  | combine op lhs rhs =>
    -- the operands of an operation do not stand in its code
    have hcode : Listing.code (.combine op lhs rhs) = Listing.code (.combine op () ()) := by
      cases op <;> rfl
    rw [hcode]
    exact plain_combine op
  | number digits =>
    rw [← String.ofList_toList (s := digits)]
    exact List.forall_mem_singleton.2 (isWord_digits h)
  | load name => exact List.forall_mem_singleton.2 h.isWord
  | call name => exact List.forall_mem_singleton.2 h.isWord
  | assign name value =>
    exact List.forall_mem_cons.2 ⟨h.isWord, List.forall_mem_singleton.2 trivial⟩
  | print name =>
    have hwrite : Instruction.IsWord "WRITE" := by decide
    exact List.forall_mem_cons.2 ⟨h.isWord, List.forall_mem_singleton.2 hwrite⟩

theorem AllWritten.plain {calls : List (Call α)} (h : AllWritten calls) :
    ∀ i ∈ codeOf calls, i.Plain := by
  intro i hi
  obtain ⟨call, hcall, hi⟩ := List.mem_flatMap.1 hi
  exact (h call hcall).plain i hi

/-- The listing of any text says what the code of its steps is. -/
theorem assemble_compile (source : Source) :
    assemble (compile source).sink.text = some (codeOf (transcript true source).calls) := by
  have hwritten : AllWritten (transcript true source).calls :=
    account_written (Trace.semantics (.ofBool true)).timeless source {}
  rw [text_compile]
  exact assemble_listing hwritten.plain

end OnePass
