import OnePass.Proofs.Reading.Texts
import OnePass.Proofs.Sinks
import OnePass.Proofs.Stores
import OnePass.Proofs.Words

/-!
# Running a program

Evaluation computes while the text is read, without a tree. What it computes is what the reference
says of the tree that the text spells (`run_eq_outcome`): the same variables and the same lines, or
the same cause of an early end and the lines printed until then.
-/

namespace OnePass

variable {σ α : Type}

/-- The causes that come from arithmetic. -/
def Cause.IsArithmetic (cause : Cause) : Prop := cause = .overflow ∨ cause = .divisionByZero

/-! ## Expressions -/

/-- In this state the action computes what the reference says, and changes nothing. -/
def Computes (y : Action σ Word) (state : σ) : Except Cause Int → Prop
  | .ok n => ∃ w : Word, w.toInt = n ∧ y state = .ok w state
  | .error cause => cause.IsArithmetic ∧ y state = .error { cause } state

/-- What depends on the word that was computed depends on its integer in the reference. -/
theorem Computes.bind {y : Action σ Word} {f : Word → Action σ Word} {state : σ}
    {r : Except Cause Int} {g : Int → Except Cause Int} (hy : Computes y state r)
    (hf : ∀ w : Word, Computes (f w) state (g w.toInt)) : Computes (y >>= f) state (r >>= g) := by
  cases r with
  | ok n =>
    obtain ⟨w, rfl, hok⟩ := hy
    -- to compute leaves the state as it is, so the second part starts from it
    have hbind : (y >>= f) state = f w state := Grammar.action_bind_of_ok hok
    have hw := hf w
    show Computes (y >>= f) state (g w.toInt)
    cases hg : g w.toInt with
    | ok k =>
      rw [hg] at hw
      obtain ⟨w', hw', hf'⟩ := hw
      exact ⟨w', hw', hbind.trans hf'⟩
    | error cause =>
      rw [hg] at hw
      exact ⟨hw.1, hbind.trans hw.2⟩
  | error cause =>
    exact ⟨hy.1, Grammar.action_bind_of_error hy.2⟩

theorem computes_pure (w : Word) (state : σ) : Computes (pure w) state (.ok w.toInt) :=
  ⟨w, rfl, rfl⟩

theorem computes_ofInt (n : Int) (state : σ) :
    Computes (.ofExcept (Word.ofInt n)) state (checked n) := by
  by_cases h : InRange n
  · rw [Word.ofInt_of_inRange h, checked, if_pos h]
    exact ⟨Int32.ofInt n, Word.toInt_ofInt h, rfl⟩
  · rw [Word.ofInt_of_not_inRange h, checked, if_neg h]
    exact ⟨Or.inl rfl, rfl⟩

/-- An operation on words is the exact one, with its result made a word. -/
theorem computes_apply (op : Operator) (a b : Word) (state : σ) :
    Computes (.ofExcept (op.apply a b)) state (op.exact a.toInt b.toInt >>= checked) := by
  rw [op.apply_eq]
  cases h : op.exact a.toInt b.toInt with
  | ok n => exact computes_ofInt n state
  | error cause => exact ⟨Or.inr (Operator.cause_of_exact h), rfl⟩

/-- The store has the values of the variables. -/
def Store.Holds (store : Store) (vars : String → Int) : Prop :=
  ∀ name, (store.get name).toInt = vars name

/-- To set a variable in the store is to change it among the variables. -/
theorem Store.Holds.set {store : Store} {vars : String → Int} (h : store.Holds vars)
    (name : String) (w : Word) :
    (store.set name w).Holds (Function.update vars name w.toInt) := by
  intro other
  rw [Store.get_set, Function.update_apply]
  by_cases heq : other = name
  · rw [if_pos heq, if_pos heq]
  · rw [if_neg heq, if_neg heq, h other]

/-- An operator on two operands. Its left operand is put aside as it is. -/
theorem computes_binary (op : Operator) {l r : Expr} {vars : String → Int}
    {state : Writing Store}
    (hl : Computes (l.drive Evaluation.semantics) state (l.value .checked vars))
    (hr : Computes (r.drive Evaluation.semantics) state (r.value .checked vars)) :
    Computes ((Expr.binary op l r).drive Evaluation.semantics) state
      ((Expr.binary op l r).value .checked vars) := by
  refine hl.bind fun a => ?_
  -- putting a value aside does nothing, so the right operand comes next
  show Computes (r.drive Evaluation.semantics >>= fun b => .ofExcept (op.apply a b)) state
    (r.value .checked vars >>= fun n => op.exact a.toInt n >>= checked)
  exact hr.bind fun b => computes_apply op a b state

/-- Evaluation computes the value of the tree, and reading variables changes nothing. -/
theorem Expr.Spelled.computes {level : Level} {e : Expr} {s : List Char}
    (h : Expr.Spelled false level e s) {vars : String → Int} {state : Writing Store}
    (hvars : state.memory.Holds vars) :
    Computes (e.drive Evaluation.semantics) state (e.value .checked vars) := by
  induction h with
  | @number ds w hds hw =>
    show Computes (.ofExcept (Word.ofText (String.ofList ds))) state _
    rw [Word.ofText_of_digits hds]
    exact computes_ofInt _ state
  | @var c w hc hw => exact ⟨_, hvars (nameOf c), rfl⟩
  -- evaluation has no calls
  | call hcalls => exact absurd hcalls Bool.false_ne_true
  | parens he hu hw ih => exact ih
  | term he ih => exact ih
  | expression he ih => exact ih
  | @binary level op l r s t w hop hl hr hw ihl ihr => exact computes_binary op ihl ihr
  | @signed op r t w hop hr hw ih =>
    exact computes_binary op (l := .zero) (computes_pure 0 state) ih

/-! ## Statements -/

/-- What a run has done: it has printed the numbers, and the variables are those given. -/
structure Ran (state : Writing Store) (printed : List Int) (vars : String → Int)
    (state' : Writing Store) : Prop where
  memory : state'.memory.Holds vars
  sink : state'.sink.Unlimited
  text : state'.sink.text = state.sink.text ++ lines printed

/-- From this state the action prints the numbers and ends as the reference says. -/
def Runs (y : Action (Writing Store) Unit) (state : Writing Store) (printed : List Int) :
    Except Cause (String → Int) → Prop
  | .ok vars => ∃ state', y state = .ok () state' ∧ Ran state printed vars state'
  | .error cause => cause.IsArithmetic ∧
    ∃ state', y state = .error { cause } state' ∧
      state'.sink.text = state.sink.text ++ lines printed

/-- An assignment prints nothing, and changes its variable if the value is computed. -/
theorem Computes.assigns {y : Action (Writing Store) Word} {state : Writing Store}
    {r : Except Cause Int} (hy : Computes y state r) (name : String) {vars : String → Int}
    (hvars : state.memory.Holds vars) (hsink : state.sink.Unlimited) :
    Runs (y >>= Evaluation.semantics.assign name) state []
      (r >>= fun n => .ok (Function.update vars name n)) := by
  cases r with
  | ok n =>
    obtain ⟨w, rfl, hok⟩ := hy
    exact ⟨_, Grammar.action_bind_of_ok hok, hvars.set name w, hsink, (append_lines_nil _).symm⟩
  | error cause =>
    exact ⟨hy.1, state, Grammar.action_bind_of_error hy.2, (append_lines_nil _).symm⟩

/-- A statement runs like its tree: it prints its line or sets its variable. -/
theorem Stmt.Spelled.runs {statement : Stmt} {s : List Char}
    (h : Stmt.Spelled false statement s) {vars : String → Int} {state : Writing Store}
    (hvars : state.memory.Holds vars) (hsink : state.sink.Unlimited) :
    Runs (statement.drive Evaluation.semantics) state (statement.printed vars)
      (statement.after .checked vars) := by
  cases h with
  | @print c u w hc hu hw =>
    refine ⟨_, Writing.write_eq_ok hsink _, hvars, hsink.append _, ?_⟩
    rw [Sink.text_append, Stmt.printed, ← hvars (nameOf c)]
    rfl
  | @input c ds u v w hc hds hu hv hw =>
    have hnumber : Computes (Evaluation.semantics.number (String.ofList ds)) state _ :=
      (Expr.Spelled.number hds hw).computes hvars
    exact hnumber.assigns (nameOf c) hvars hsink
  | @assign c e s u v hc hu hv he => exact (he.computes hvars).assigns (nameOf c) hvars hsink

/-- Statements run one after another, until one fails. -/
theorem Runs.cons {s : Stmt} {ss : List Stmt} {vars : String → Int} {state : Writing Store}
    (hs : Runs (s.drive Evaluation.semantics) state (s.printed vars) (s.after .checked vars))
    (hss : ∀ {vars' state'}, Store.Holds state'.memory vars' → state'.sink.Unlimited →
      Runs (driveAll Evaluation.semantics ss) state'
        (outcome .checked vars' ss).printed (outcome .checked vars' ss).result) :
    Runs (driveAll Evaluation.semantics (s :: ss)) state
      (outcome .checked vars (s :: ss)).printed (outcome .checked vars (s :: ss)).result := by
  cases hafter : s.after .checked vars with
  | error cause =>
    rw [outcome_cons_error hafter]
    rw [hafter] at hs
    obtain ⟨hcause, state', herror, htext⟩ := hs
    -- what fails has printed nothing, and nothing behind it is done
    rw [Stmt.printed_of_error hafter] at htext
    exact ⟨hcause, state', Grammar.action_bind_of_error herror, htext⟩
  | ok vars' =>
    rw [outcome_cons_ok hafter]
    rw [hafter] at hs
    obtain ⟨state₁, hok, hran⟩ := hs
    -- the rest starts with the variables that this statement has left
    have hrest := hss hran.memory hran.sink
    have hbind : driveAll Evaluation.semantics (s :: ss) state =
        driveAll Evaluation.semantics ss state₁ := Grammar.action_bind_of_ok hok
    cases hresult : (outcome .checked vars' ss).result with
    | ok vars'' =>
      rw [hresult] at hrest
      obtain ⟨state₂, hok₂, hran₂⟩ := hrest
      refine ⟨state₂, hbind.trans hok₂, hran₂.memory, hran₂.sink, ?_⟩
      rw [hran₂.text, hran.text, lines_append, String.append_assoc]
    | error cause =>
      rw [hresult] at hrest
      obtain ⟨hcause, state₂, herror, htext⟩ := hrest
      refine ⟨hcause, state₂, hbind.trans herror, ?_⟩
      rw [htext, hran.text, lines_append, String.append_assoc]

/-- Statements run like their trees, one after another. Induction on the spelling, with the store
that is left by the statements before. -/
theorem Statements.Spelled.runs {statements : List Stmt} {s : List Char}
    (h : Statements.Spelled false statements s) {vars : String → Int} {state : Writing Store}
    (hvars : state.memory.Holds vars) (hsink : state.sink.Unlimited) :
    Runs (driveAll Evaluation.semantics statements) state
      (outcome .checked vars statements).printed (outcome .checked vars statements).result := by
  induction h generalizing vars state with
  | last hs he =>
    refine Runs.cons (hs.runs hvars hsink) fun hvars' hsink' => ?_
    exact ⟨_, rfl, hvars', hsink', (append_lines_nil _).symm⟩
  | cons hs he hss ih => exact Runs.cons (hs.runs hvars hsink) ih

/-! ## Whole programs -/

theorem Store.holds_empty : Store.Holds {} fun _ => 0 := fun _ => rfl

/-- A text that runs without a fault spells a program whose meaning it ends with. -/
theorem outcome_of_run {src : String} {store : Store} (h : (run (.ofText src)).result = .ok store) :
    ∃ program p rest vars, Program.Spelled false program p ∧ src.toList = p ++ ';' :: rest ∧
      (outcome .checked (fun _ => 0) program).result = .ok vars ∧ store.Holds vars ∧
      (run (.ofText src)).sink.text =
        lines (outcome .checked (fun _ => 0) program).printed := by
  obtain ⟨q, hprogram, rfl, htext⟩ := program_of_execute h
  obtain ⟨program, p, rest, hp, hsrc, hdrive, -⟩ := Grammar.spelled_of_program hprogram
  have hstatements := hp
  obtain ⟨w, t, hw, ht, -⟩ := hstatements
  have hruns : Runs (driveAll Evaluation.semantics program) ⟨{}, {}⟩ _ _ :=
    ht.runs Store.holds_empty Sink.unlimited_empty
  cases hresult : (outcome .checked (fun _ => 0) program).result with
  | ok vars =>
    rw [hresult] at hruns
    obtain ⟨state', hok, hran⟩ := hruns
    -- the run that was observed is the one the reference speaks of
    obtain rfl : q.state = state' := by
      have hstate := hdrive.symm.trans hok
      cases hstate
      rfl
    refine ⟨program, p, rest, vars, hp, hsrc, hresult, hran.memory, ?_⟩
    exact htext.trans (hran.text.trans String.empty_append)
  | error cause =>
    rw [hresult] at hruns
    obtain ⟨-, state', herror, -⟩ := hruns
    have hstate := hdrive.symm.trans herror
    cases hstate

/-- A program that is spelled before a `;` runs like its tree. -/
theorem run_eq_outcome {program : List Stmt} {p : List Char}
    (hp : Program.Spelled false program p) (rest : List Char) :
    let report := run (.ofText (String.ofList (p ++ ';' :: rest)))
    let reference := outcome .checked (fun _ => 0) program
    report.sink.text = lines reference.printed ∧
    (∀ vars, reference.result = .ok vars →
      ∃ store, report.result = .ok store ∧ ∀ name, (store.get name).toInt = vars name) ∧
    (∀ cause, reference.result = .error cause →
      (cause = .overflow ∨ cause = .divisionByZero) ∧ report.result = .error ⟨cause, ⟨0, 0⟩⟩) := by
  intro report reference
  have hsrc : (String.ofList (p ++ ';' :: rest)).toList = p ++ ';' :: rest := String.toList_ofList
  have hstatements := hp
  obtain ⟨w, t, hw, ht, -⟩ := hstatements
  have hruns : Runs (driveAll Evaluation.semantics program) ⟨{}, {}⟩ reference.printed
      reference.result := ht.runs Store.holds_empty Sink.unlimited_empty
  have htext (printed : List Int) : Sink.text {} ++ lines printed = lines printed :=
    String.empty_append
  cases hresult : reference.result with
  | ok vars =>
    rw [hresult] at hruns
    obtain ⟨state', hok, hran⟩ := hruns
    -- the parser does what the tree does, and the report tells it
    have hprogram := Grammar.program_eq_ok Evaluation.semantics hp hsrc hok
    have hreport : report = _ := execute_eq_ok hprogram hran.sink
    rw [hreport]
    refine ⟨(Sink.text_flushed _).trans (hran.text.trans (htext _)), ?_, ?_⟩
    · rintro _ ⟨rfl⟩
      exact ⟨state'.memory, rfl, hran.memory⟩
    · intro cause hcause
      cases hcause
  | error cause =>
    rw [hresult] at hruns
    obtain ⟨hcause, state', herror, hprinted⟩ := hruns
    -- where the parser stood then is not told, since a fault of arithmetic has no place
    obtain ⟨c, hprogram⟩ := Grammar.program_eq_error Evaluation.semantics hp hsrc herror
    have hreport : report = _ := execute_eq_error hprogram
    rw [hreport]
    refine ⟨hprinted.trans (htext _), ?_, ?_⟩
    · intro vars hvars
      cases hvars
    · rintro _ ⟨rfl⟩
      exact ⟨hcause, rfl⟩

/-- What was printed before a division by zero is there. -/
theorem run_eq_outcome_division :
    Program.Spelled false
      [.assign "A" (.binary .sub .zero (.binary .mul (.number "2") (.number "3"))), .print "A",
        .assign "B" (.binary .div (.number "9") (.binary .add (.var "A") (.number "6")))]
      "a=-2*3\r\n!a\nb = 9/(A+6)".toList ∧
    (run (.ofText (String.ofList ("a=-2*3\r\n!a\nb = 9/(A+6)".toList ++ ';' :: ['?'])))).sink.text
      = "-6\n" ∧
    (run (.ofText (String.ofList ("a=-2*3\r\n!a\nb = 9/(A+6)".toList ++ ';' :: ['?'])))).result
      = .error ⟨.divisionByZero, ⟨0, 0⟩⟩ := by
  have hspace : Blanks [' '] := by decide
  have hnone : Blanks [] := by decide
  have hnumber (d : Char) (hd : d.isDigit = true) :
      Expr.Spelled false .factor (.number (String.ofList [d])) [d] :=
    .number ⟨List.cons_ne_nil _ _, by simpa using hd⟩ hnone
  have hproduct : Expr.Spelled false .term (.binary .mul (.number "2") (.number "3"))
      ['2', '*', '3'] :=
    .binary rfl (.term (hnumber '2' rfl)) (hnumber '3' rfl) hnone
  have hsum : Expr.Spelled false .expression (.binary .add (.var "A") (.number "6"))
      ['A', '+', '6'] :=
    .binary rfl (.expression (.term (.var (c := 'A') rfl hnone))) (.term (hnumber '6' rfl)) hnone
  have hquotient : Expr.Spelled false .term
      (.binary .div (.number "9") (.binary .add (.var "A") (.number "6"))) _ :=
    .binary rfl (.term (hnumber '9' rfl)) (.parens hsum hnone hnone) hnone
  have hprogram : Program.Spelled false
      [.assign "A" (.binary .sub .zero (.binary .mul (.number "2") (.number "3"))), .print "A",
        .assign "B" (.binary .div (.number "9") (.binary .add (.var "A") (.number "6")))]
      "a=-2*3\r\n!a\nb = 9/(A+6)".toList :=
    ⟨[], _, hnone,
      .cons (.assign (c := 'a') rfl hnone hnone (.signed rfl hproduct hnone)) (.crlf hnone)
        (.cons (.print (c := 'a') rfl hnone hnone) (.lf hnone)
          (.last (.assign (c := 'b') rfl hspace hspace (.expression hquotient)) .none)),
      by decide⟩
  obtain ⟨htext, -, herror⟩ := run_eq_outcome hprogram ['?']
  refine ⟨hprogram, htext.trans ?_, (herror .divisionByZero ?_).2⟩
  · decide +kernel
  · rfl

end OnePass
