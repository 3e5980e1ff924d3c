import OnePass.Proofs.Lookahead
import OnePass.Proofs.Termination

/-!
# What a parser can find missing

A parser expects `(`, `!`, `?` and the operators only where it has seen them at hand, and between
the look and the expectation nothing moves the cursor. So none of these is ever found missing, and
what a user can be told to be missing are a few things for each goal (`Goal.diagnostics`). All other
faults are those of the semantics.

The runs are those of code without bounds (`Code.Runs`), which come to pieces of that code
(`Code.ReachedFrom`). What a procedure can find missing is read off its body, with the character at
hand wherever that is looked at (`Code.Diagnoses.body`). It holds of all that a run comes to, the
calls in it included, by induction on how the run gets there (`Code.Diagnoses.of_reached`).

* **`explained_of_runs`** — a fault is that of the last step, which failed, or all steps have
  succeeded and something on the list is missing at the cursor.
* **`guarded_expectations_succeed`** — both facts, for whatever is asked of a parser.
-/

namespace OnePass.Grammar

variable {σ α β γ δ : Type} {m : Clocked σ α}

/-! ## Runs -/

namespace Code

/-- A run comes to what the parser comes to. -/
theorem Runs.eq_parser {x : Code σ α β} {p : Progress σ} {n : Nat}
    {r : EStateM.Result Fault (Progress σ) β} (h : x.Runs m p n r) : r = x.parser m p := by
  induction h with
  | basic x p => rfl
  | call P h ih => rw [ih, parser_body]; rfl
  | bind_ok hx hf ihx ihf =>
    show _ = (_ >>= _ : Parser _ _) _
    rw [bind_apply, ← ihx]
    exact ihf
  | bind_error hx ih =>
    show _ = (_ >>= _ : Parser _ _) _
    rw [bind_apply, ← ih]

/-- All code has a run. -/
theorem exists_run (m : Clocked σ α) (x : Code σ α β) (p : Progress σ) :
    ∃ n, x.Runs m p n (x.parser m p) := by
  induction x generalizing p with
  | basic x => exact ⟨0, .basic x p⟩
  | call P =>
    obtain ⟨n, -, hruns⟩ := exists_runs m P p
    exact ⟨n, hruns⟩
  | bind x f ihx ihf =>
    obtain ⟨n, hx⟩ := ihx p
    -- the two runs are put together, and a fault of the first is that of both
    show ∃ n, Runs m _ p n ((x.parser m >>= fun b => (f b).parser m) p)
    rw [bind_apply]
    cases hxp : x.parser m p with
    | error fault q =>
      rw [hxp] at hx
      exact ⟨n, .bind_error hx⟩
    | ok b q =>
      rw [hxp] at hx
      obtain ⟨k, hf⟩ := ihf b q
      exact ⟨n + k, .bind_ok hx hf⟩

/-- The run of some code from a place comes to the code `y`, at the place `q`. -/
inductive ReachedFrom (m : Clocked σ α) {γ : Type} (y : Code σ α γ) :
    {β : Type} → Code σ α β → Progress σ → Progress σ → Prop where
  | here {q : Progress σ} : ReachedFrom m y y q q
  | call {β : Type} {P : Procedure α β} {p q : Progress σ} (h : ReachedFrom m y (body m P) p q) :
      ReachedFrom m y (.call P) p q
  | bind_first {β δ : Type} {x : Code σ α β} {f : β → Code σ α δ} {p q : Progress σ}
      (h : ReachedFrom m y x p q) : ReachedFrom m y (.bind x f) p q
  | bind_second {β δ : Type} {x : Code σ α β} {f : β → Code σ α δ} {p p' q : Progress σ} {n : Nat}
      {b : β} (hx : x.Runs m p n (.ok b p')) (h : ReachedFrom m y (f b) p' q) :
      ReachedFrom m y (.bind x f) p q

end Code

/-! ## What can be missing -/

/-- What a missing symbol is called. -/
def quoted (c : Char) : String := "\"" ++ c.toString ++ "\""

/-- What can be missing in an expression. -/
def inExpression : List String := ["Integer", "\")\""]

/-- What can be missing in a statement. -/
def inStatement : List String := "Name" :: "\"=\"" :: inExpression

/-- What can be missing in an assignment or at the end of its line. -/
def inLine : List String := "NewLine" :: inStatement

theorem inExpression_subset : inExpression ⊆ inStatement :=
  List.subset_cons_of_subset _ (List.subset_cons_self _ _)

theorem inStatement_subset : inStatement ⊆ inLine := List.subset_cons_self _ _

/-- What a procedure can find missing. -/
def Procedure.diagnostics : {β : Type} → Procedure α β → List String
  | _, .run _ => []
  | _, .factor | _, .termAfter _ | _, .term | _, .expressionAfter _ | _, .expression =>
    inExpression
  | _, .assignment | _, .statement | _, .program => inStatement
  | _, .assignmentLine => inLine

/-- Run from the place, the code finds nothing missing but things on the list, and neither do the
procedures that it calls; what it hands to the semantics are steps. -/
def Code.Diagnoses (m : Clocked σ α) (list : List String) :
    {β : Type} → Code σ α β → Progress σ → Prop
  | _, .basic (.missing what), _ => what ∈ list
  | _, .basic (.act (β := β) action), _ =>
    ∃ (step : Step α) (f : β → Option α), m.perform step = f <$> action
  | _, .basic _, _ => True
  | _, .call P, _ => P.diagnostics ⊆ list
  | _, .bind x f, p => x.Diagnoses m list p ∧
    ∀ b q, x.parser m p = .ok b q → (f b).Diagnoses m list q

namespace Code.Diagnoses

variable {list : List String} {p : Progress σ}

/-- Less can be missing of what is on a shorter list. -/
theorem mono {list' : List String} {x : Code σ α β} (hlist : list ⊆ list')
    (h : x.Diagnoses m list p) : x.Diagnoses m list' p := by
  induction x generalizing p with
  | basic x =>
    cases x with
    | missing what => exact hlist h
    | act action => exact h
    | pure b => trivial
    | cursor => trivial
    | advance => trivial
  | call P => exact List.Subset.trans h hlist
  | bind x f ihx ihf => exact ⟨ihx h.1, fun b q hq => ihf b (h.2 b q hq)⟩

/-- One piece of code behind another: both are looked at with the same list. -/
theorem bind {x : Code σ α β} {f : β → Code σ α γ} (hx : x.Diagnoses m list p)
    (hf : ∀ b q, (f b).Diagnoses m list q) : (x >>= f).Diagnoses m list p :=
  ⟨hx, fun b q _ => hf b q⟩

/-- To ask for the cursor gives the one at hand. -/
theorem cursor_bind {f : Cursor → Code σ α γ} (hf : (f p.cursor).Diagnoses m list p) :
    (cursor >>= f).Diagnoses m list p := by
  refine ⟨trivial, fun c q hq => ?_⟩
  cases hq
  exact hf

/-- A step moves nothing. -/
theorem act_bind {action : Action σ β} {f : β → Code σ α γ} (step : Step α) {g : β → Option α}
    (h : m.perform step = g <$> action)
    (hf : ∀ b q, q.cursor = p.cursor → (f b).Diagnoses m list q) :
    (act action >>= f).Diagnoses m list p := by
  refine ⟨⟨step, g, h⟩, fun b q hq => hf b q ?_⟩
  have hact : Grammar.act m action p = .ok b q := hq
  unfold Grammar.act at hact
  split at hact <;> cases hact
  rfl

/-! ### Lexemes -/

theorem run (f : Char → Bool) : (Code.run f : Code σ α _).Diagnoses m list p :=
  List.nil_subset list

theorem blanks (b : β) : (do
    let _ ← Code.run isBlank
    pure b : Code σ α β).Diagnoses m list p :=
  (run isBlank).bind fun _ _ => trivial

/-- A symbol can be missing only where it is not at hand. -/
theorem symbol {c : Char} (h : p.cursor.isAt c = false → quoted c ∈ list) :
    (Code.symbol c : Code σ α Unit).Diagnoses m list p := by
  refine cursor_bind ?_
  split
  · exact bind trivial fun _ _ => blanks ()
  · next hat => exact h (Bool.eq_false_of_not_eq_true hat)

/-- A symbol that was seen is not missing. -/
theorem symbol_of_isAt {c : Char} (h : p.cursor.isAt c = true) :
    (Code.symbol c : Code σ α Unit).Diagnoses m list p :=
  symbol fun hat => absurd h (by rw [hat]; decide)

/-- The same holds of a name. -/
theorem letter (h : p.cursor.isAtLetter = false → "Name" ∈ list) :
    (Code.letter : Code σ α String).Diagnoses m list p := by
  refine cursor_bind ?_
  cases hlook : p.cursor.look.filter Char.isAlpha with
  | some c => exact bind trivial fun _ _ => blanks _
  | none =>
    refine h ?_
    rw [Cursor.isAtLetter, Option.any_eq_false]
    intro c hc
    simpa [hc] using hlook

theorem letter_of_isAtLetter (h : p.cursor.isAtLetter = true) :
    (Code.letter : Code σ α String).Diagnoses m list p :=
  letter fun hat => absurd h (by rw [hat]; decide)

/-- Digits are looked for and not at hand before, so they may be missing. -/
theorem digits (h : "Integer" ∈ list) : (Code.digits : Code σ α String).Diagnoses m list p := by
  refine (run _).bind fun ds q => ?_
  split
  · exact h
  · exact blanks _

/-- A line end may be there or not. -/
theorem lineEnd : (Code.lineEnd : Code σ α Bool).Diagnoses m list p := by
  refine cursor_bind ?_
  split
  · refine bind trivial fun _ q => cursor_bind ?_
    split
    · exact bind trivial fun _ q => blanks true
    · exact blanks true
  · exact bind trivial fun _ q => blanks true
  · trivial

/-! ### Productions -/

/-- A variable or a call: of a call only `)` can be missing. -/
theorem reference (h : p.cursor.isAtLetter = true) (hlist : quoted ')' ∈ list) :
    (Code.reference m).Diagnoses m list p := by
  refine (letter_of_isAtLetter h).bind fun name q => cursor_bind ?_
  split
  · next hcall =>
    refine (symbol_of_isAt (Bool.and_eq_true_iff.1 hcall).2).bind fun _ q => ?_
    exact (symbol fun _ => hlist).bind fun _ q => ⟨.call name, some, rfl⟩
  · exact ⟨.load name, some, rfl⟩

/-- An output begins with the `!` that was seen, so only its name can be missing. -/
theorem output (h : p.cursor.isAt '!' = true) (hlist : "Name" ∈ list) :
    (Code.output m).Diagnoses m list p := by
  refine (symbol_of_isAt h).bind fun _ q => (letter fun _ => hlist).bind fun name q => ?_
  exact ⟨.print name, _, rfl⟩

theorem input (h : p.cursor.isAt '?' = true) (hname : "Name" ∈ list) (hdigits : "Integer" ∈ list) :
    (Code.input m).Diagnoses m list p := by
  refine (symbol_of_isAt h).bind fun _ q => (letter fun _ => hname).bind fun name q => ?_
  refine (digits hdigits).bind fun ds q => act_bind (.number ds) rfl fun value q hq => ?_
  exact ⟨.assign name value, _, rfl⟩

/-- The operator is still at hand when the left operand has been put aside. -/
theorem loop (operand : Procedure α α) (again : α → Procedure α α)
    (hoperand : operand.diagnostics ⊆ list) (hagain : ∀ value, (again value).diagnostics ⊆ list)
    (level : Operator → Bool) (lhs : α) :
    (Code.loop m level operand again lhs).Diagnoses m list p := by
  refine cursor_bind ?_
  cases hlook : p.cursor.operator?.filter level with
  | none => trivial
  | some op =>
    -- the operator was seen, so its symbol is found
    have hat : p.cursor.isAt op.toChar = true := by
      rw [Cursor.isAt_iff _ (isSymbol_toChar op), ← Cursor.operator?_eq_some_iff]
      exact (Option.filter_eq_some_iff.1 hlook).1
    refine act_bind (.hold lhs) rfl fun held q hq => ?_
    refine (symbol_of_isAt (by rwa [hq])).bind fun _ q => ?_
    refine bind (x := .call operand) hoperand fun rhs q => ?_
    exact act_bind (.combine op held rhs) rfl fun value q hq => hagain value

/-- The body of a procedure finds nothing missing but what the procedure may. -/
theorem body (P : Procedure α β) (p : Progress σ) :
    (Code.body m P).Diagnoses m P.diagnostics p := by
  have hparenthesis : quoted ')' ∈ inExpression := by decide
  have hdigits : "Integer" ∈ inExpression := by decide
  have hname : "Name" ∈ inStatement := by decide
  have hequals : quoted '=' ∈ inStatement := by decide
  -- one case for each procedure; the character at hand decides in the ones that choose
  cases P with
  | run f =>
    refine cursor_bind ?_
    split
    · trivial
    · exact bind trivial fun _ q => (run f).bind fun cs q => trivial
  | factor =>
    refine cursor_bind ?_
    split
    · next hat =>
      refine (symbol_of_isAt hat).bind fun _ q => ?_
      refine bind (x := .call .expression) (List.Subset.refl _) fun value q => ?_
      exact (symbol fun _ => hparenthesis).bind fun _ q => trivial
    · split
      · next hat => exact reference hat hparenthesis
      · exact (digits hdigits).bind fun ds q => ⟨.number ds, some, rfl⟩
  | termAfter lhs =>
    exact loop .factor .termAfter (List.Subset.refl _) (fun _ => List.Subset.refl _) _ lhs
  | term => exact bind (x := .call .factor) (List.Subset.refl _) fun lhs q => List.Subset.refl _
  | expressionAfter lhs =>
    exact loop .term .expressionAfter (List.Subset.refl _) (fun _ => List.Subset.refl _) _ lhs
  | expression =>
    refine cursor_bind ?_
    split
    · exact act_bind .zero rfl fun lhs q _ => List.Subset.refl _
    · exact bind (x := .call .term) (List.Subset.refl _) fun lhs q => List.Subset.refl _
  | assignment =>
    refine (letter fun _ => hname).bind fun name q => ?_
    refine (symbol fun _ => hequals).bind fun _ q => ?_
    refine bind (x := .call .expression) inExpression_subset fun value q => ?_
    exact ⟨.assign name value, _, rfl⟩
  | statement =>
    refine cursor_bind ?_
    split
    · next hat => exact output hat hname
    · split
      · next hat => exact input hat hname (inExpression_subset hdigits)
      · exact List.Subset.refl _
  | assignmentLine =>
    refine bind (x := .call .assignment) inStatement_subset fun _ q => ?_
    refine lineEnd.bind fun seen q => ?_
    split
    · trivial
    · exact List.mem_cons_self
  | program =>
    refine bind (x := .call .statement) (List.Subset.refl _) fun _ q => lineEnd.bind fun _ q => ?_
    refine cursor_bind ?_
    split
    · trivial
    · exact List.Subset.refl _

/-- What holds of code where a run begins, holds of all that the run comes to. -/
theorem of_reached {x : Code σ α β} {y : Code σ α γ} {q : Progress σ} (h : y.ReachedFrom m x p q)
    (hx : x.Diagnoses m list p) : y.Diagnoses m list q := by
  induction h generalizing list with
  | here => exact hx
  | call h ih => exact (ih (body _ _)).mono hx
  | bind_first h ih => exact ih hx.1
  | bind_second hruns h ih => exact ih (hx.2 _ _ hruns.eq_parser.symm)

/-- A symbol that is not on the list is found. -/
theorem isAt {c : Char} (h : (Code.symbol c : Code σ α Unit).Diagnoses m list p)
    (hc : quoted c ∉ list) : p.cursor.isAt c = true := by
  have hchoice := h.2 p.cursor p rfl
  beta_reduce at hchoice
  by_contra hat
  rw [if_neg hat] at hchoice
  exact hc hchoice

end Code.Diagnoses

/-- A symbol that productions expect only where they have seen it. -/
def IsGuarded (c : Char) : Prop := c = '(' ∨ c = '!' ∨ c = '?' ∨ ∃ op : Operator, c = op.toChar

/-- Nothing that is looked at beforehand is on any of the lists. -/
theorem IsGuarded.not_mem {c : Char} (h : IsGuarded c) : quoted c ∉ inLine := by
  rcases h with rfl | rfl | rfl | ⟨op, rfl⟩
  · decide
  · decide
  · decide
  · cases op <;> decide

/-! ## Faults -/

/-- After code that began with the log: it has succeeded, or something on the list is missing at the
cursor, and the steps since then have succeeded; or the last of these has failed with the fault,
where the cursor stands, and the others have succeeded. -/
def Explained (list : List String) (log : List (Call α)) :
    EStateM.Result Fault (Progress (Logged σ α)) β → Prop
  | .ok _ q => ∃ new, q.state.calls = log ++ new ∧ ∀ call ∈ new, call.Succeeds
  | .error fault q => ∃ new, q.state.calls = log ++ new ∧
    (((∃ what ∈ list, fault = q.cursor.missing what) ∧ ∀ call ∈ new, call.Succeeds) ∨
      ∃ earlier step, new = earlier ++ [⟨q.cursor, step, .error fault⟩] ∧
        ∀ call ∈ earlier, call.Succeeds)

namespace Explained

variable {list : List String} {log : List (Call α)}

/-- A fault on a shorter list is on a longer one. -/
theorem mono {list' : List String} (hlist : list ⊆ list')
    {r : EStateM.Result Fault (Progress (Logged σ α)) β} (h : Explained list log r) :
    Explained list' log r := by
  cases r with
  | ok b q => exact h
  | error fault q =>
    obtain ⟨new, hnew, ⟨⟨what, hwhat, hfault⟩, hall⟩ | hfailed⟩ := h
    · exact ⟨new, hnew, .inl ⟨⟨what, hlist hwhat, hfault⟩, hall⟩⟩
    · exact ⟨new, hnew, .inr hfailed⟩

/-- Steps that succeeded come first. -/
theorem behind {first : List (Call α)} (hfirst : ∀ call ∈ first, call.Succeeds)
    {r : EStateM.Result Fault (Progress (Logged σ α)) β} (h : Explained list (log ++ first) r) :
    Explained list log r := by
  cases r with
  | ok b q =>
    obtain ⟨new, hnew, hall⟩ := h
    refine ⟨first ++ new, by rw [hnew, List.append_assoc], ?_⟩
    exact List.forall_mem_append.2 ⟨hfirst, hall⟩
  | error fault q =>
    obtain ⟨new, hnew, h⟩ := h
    refine ⟨first ++ new, by rw [hnew, List.append_assoc], ?_⟩
    -- something is missing, or the last step has failed
    rcases h with ⟨hmissing, hall⟩ | ⟨earlier, step, rfl, hearlier⟩
    · exact .inl ⟨hmissing, List.forall_mem_append.2 ⟨hfirst, hall⟩⟩
    · exact .inr ⟨first ++ earlier, step, (List.append_assoc _ _ _).symm,
        List.forall_mem_append.2 ⟨hfirst, hearlier⟩⟩

/-- A step is written down with what came of it. -/
theorem act {step : Step α} {f : β → Option α} {action : Action (Logged σ α) β}
    (h : m.logged.perform step = f <$> action) (p : Progress (Logged σ α)) :
    Explained list p.state.calls (Grammar.act m.logged action p) := by
  obtain ⟨c, s, place, calls⟩ := p
  unfold Grammar.act
  cases hstep : m.perform step (m.tick c s) with
  | ok answer s' =>
    have hlogged := Clocked.perform_logged_ok hstep place calls
    rw [h] at hlogged
    obtain ⟨b, haction, -⟩ := Action.map_eq_ok hlogged
    rw [haction]
    exact ⟨_, rfl, List.forall_mem_singleton.2 ⟨answer, rfl⟩⟩
  | error fault s' =>
    -- the step that fails is the last one of the log
    have hlogged := Clocked.perform_logged_error hstep place calls
    rw [h] at hlogged
    rw [Action.map_eq_error hlogged]
    exact ⟨_, rfl, .inr ⟨[], step, rfl, List.forall_mem_nil _⟩⟩

end Explained

/-- Whatever the code that is run, its fault is explained. Induction on the run, where a call hands
its own list on. -/
theorem explained_of_runs {x : Code (Logged σ α) α β} {p : Progress (Logged σ α)} {n : Nat}
    {r : EStateM.Result Fault (Progress (Logged σ α)) β} (h : x.Runs m.logged p n r)
    {list : List String} (hx : x.Diagnoses m.logged list p) :
    Explained list p.state.calls r := by
  induction h generalizing list with
  | basic x p =>
    -- nothing but a step is noted
    have hnone : p.state.calls = p.state.calls ++ [] := (List.append_nil _).symm
    cases x with
    | pure b => exact ⟨[], hnone, List.forall_mem_nil _⟩
    | cursor => exact ⟨[], hnone, List.forall_mem_nil _⟩
    | advance => exact ⟨[], hnone, List.forall_mem_nil _⟩
    | missing what => exact ⟨[], hnone, .inl ⟨⟨what, hx, rfl⟩, List.forall_mem_nil _⟩⟩
    | act action =>
      obtain ⟨step, f, hstep⟩ := hx
      exact Explained.act hstep p
  | call P h ih => exact (ih (.body P _)).mono hx
  | bind_ok hruns hf ihx ihf =>
    obtain ⟨first, hlog, hfirst⟩ := ihx hx.1
    have hbehind := ihf (hx.2 _ _ hruns.eq_parser.symm)
    rw [hlog] at hbehind
    -- all steps of the first part have succeeded, since it did
    exact hbehind.behind hfirst
  | bind_error hruns ih => exact ih hx.1

/-! ## Goals -/

/-- The code of a goal: the call of one procedure. -/
def Goal.code : Goal → Code σ α (Option α)
  | .program => do
    .call .program
    pure none
  | .statement => do
    .call .statement
    pure none
  | .assignmentLine => do
    .call .assignmentLine
    pure none
  | .expression => do
    let value ← .call .expression
    pure (some value)

/-- What can be missing to a goal. -/
def Goal.diagnostics : Goal → List String
  | .program | .statement => inStatement
  | .assignmentLine => inLine
  | .expression => inExpression

theorem Goal.parser_code (goal : Goal) : goal.code.parser m = parse m goal := by
  cases goal <;> exact (map_eq_pure_bind _ _).symm

/-- The list of a goal has all that it can find missing. -/
theorem Goal.diagnoses_code (goal : Goal) (p : Progress σ) :
    goal.code.Diagnoses m goal.diagnostics p := by
  cases goal with
  | program => exact .bind (x := .call .program) (List.Subset.refl _) fun _ q => trivial
  | statement => exact .bind (x := .call .statement) (List.Subset.refl _) fun _ q => trivial
  | assignmentLine =>
    exact .bind (x := .call .assignmentLine) (List.Subset.refl _) fun _ q => trivial
  | expression => exact .bind (x := .call .expression) (List.Subset.refl _) fun _ q => trivial

/-- The list of a line has everything. -/
theorem Goal.diagnostics_subset (goal : Goal) : goal.diagnostics ⊆ inLine := by
  cases goal with
  | program => exact inStatement_subset
  | statement => exact inStatement_subset
  | assignmentLine => exact List.Subset.refl _
  | expression => exact List.Subset.trans inExpression_subset inStatement_subset

/-- An attempt with a fault is a run of the parser with this fault. -/
theorem parse_eq_error {goal : Goal} {p : Progress σ} {fault : Fault}
    (h : (attempt m goal p).1 = .error fault) :
    parse m goal p = .error fault (attempt m goal p).2 := by
  unfold attempt at h ⊢
  cases hparse : parse m goal p with
  | ok value q => rw [hparse] at h; cases h
  | error fault' q => rw [hparse] at h; cases h; rfl

/-- A goal that fails does so with a log, too. -/
theorem exists_logged {goal : Goal} {p q : Progress σ} {fault : Fault}
    (h : parse m goal p = .error fault q) :
    ∃ place calls, parse m.logged goal ⟨p.cursor, { state := p.state, place := p.cursor }⟩ =
      .error fault ⟨q.cursor, ⟨q.state, place, calls⟩⟩ := by
  obtain ⟨answer, c, l, hlogged, hplain⟩ :=
    attempt_refines (refines_logged m) goal p.cursor ⟨p.state, p.cursor, []⟩
  have hfailed : attempt m goal ⟨p.cursor, p.state⟩ = (.error fault, q) := by
    show attempt m goal p = _
    rw [attempt, h]
  cases hfailed.symm.trans hplain
  have hparse := parse_eq_error (congrArg Prod.fst hlogged)
  rw [hlogged] at hparse
  exact ⟨l.place, l.calls, hparse⟩

/-- Wherever the cursor stands and whatever the state of the semantics is, also behind a fault: in
the run of a goal a symbol that was looked at first is always found. A fault says that something on
the list of the goal is missing at the cursor, with no failure of the semantics before it, or it is
the fault of the last step, unchanged, and all steps before that have succeeded. -/
theorem guarded_expectations_succeed (m : Clocked σ α) (goal : Goal) (p : Progress σ) :
    (∃ n, goal.code.Runs m p n (parse m goal p)) ∧
    (∀ c q, IsGuarded c → (Code.symbol c).ReachedFrom m goal.code p q →
      scan (Lexeme.symbol c) q = .ok () { q with cursor := q.cursor.advance.skipBlanks }) ∧
    ∀ fault q, parse m goal p = .error fault q →
      ∃ place calls, parse m.logged goal ⟨p.cursor, { state := p.state, place := p.cursor }⟩ =
          .error fault ⟨q.cursor, ⟨q.state, place, calls⟩⟩ ∧
        (((∃ what ∈ goal.diagnostics, fault = q.cursor.missing what) ∧
            ∀ call ∈ calls, call.Succeeds) ∨
          ∃ earlier step, calls = earlier ++ [⟨q.cursor, step, .error fault⟩] ∧
            ∀ call ∈ earlier, call.Succeeds) := by
  refine ⟨?_, fun c q hc hreached => ?_, fun fault q hfault => ?_⟩
  · have hruns := Code.exists_run m goal.code p
    rwa [goal.parser_code] at hruns
  · have hsymbol := (goal.diagnoses_code p).of_reached hreached
    -- a guarded symbol is on no list, so it must be at hand
    have hat := hsymbol.isAt fun hmem => hc.not_mem (goal.diagnostics_subset hmem)
    rw [scan, Lexeme.symbol, if_pos hat]
  · obtain ⟨place, calls, hlogged⟩ := exists_logged hfault
    refine ⟨place, calls, hlogged, ?_⟩
    -- the run with a log comes to the same end, and its log explains it
    obtain ⟨n, hruns⟩ := Code.exists_run m.logged goal.code
      ⟨p.cursor, { state := p.state, place := p.cursor }⟩
    rw [goal.parser_code, hlogged] at hruns
    obtain ⟨new, hnew, hexplained⟩ := explained_of_runs hruns (goal.diagnoses_code _)
    rw [List.nil_append] at hnew
    rwa [show calls = new from hnew]

/-- A literal overflows, and the operator behind it is taken for a sign when an expression is asked
for again. It is still found when a zero has been put aside, and then a number is missing. -/
theorem guarded_expectations_succeed_resumed :
    let m := Evaluation.semantics.timeless
    let begin : Progress (Writing Store) := .start (.ofText "2147483648+)") ⟨{}, {}⟩
    let p := stand m [.expression] begin
    IsGuarded '+' ∧ (Code.symbol '+').ReachedFrom m Goal.expression.code p p ∧
    scan (Lexeme.symbol '+') p = .ok () { p with cursor := p.cursor.advance.skipBlanks } ∧
    (attempt m .expression p).1 =
      .error ((attempt m .expression p).2.cursor.missing "Integer") ∧
    ∃ q, parse m .expression begin = .error .overflow q ∧
      ∃ place calls, parse m.logged .expression
          ⟨begin.cursor, { state := begin.state, place := begin.cursor }⟩ =
          .error .overflow ⟨q.cursor, ⟨q.state, place, calls⟩⟩ ∧
        ∃ earlier step, calls = earlier ++ [⟨q.cursor, step, .error .overflow⟩] ∧
          ∀ call ∈ earlier, call.Succeeds := by
  intro m begin p
  have hsign : p.cursor.isAtAdditive = true := by decide +kernel
  have hoperator : p.cursor.operator?.filter Operator.isAdditive = some .add := by decide +kernel
  have hguarded : IsGuarded '+' := .inr (.inr (.inr ⟨.add, rfl⟩))
  have hafter : (Code.symbol '+').ReachedFrom m (.call (.expressionAfter 0)) p p := by
    refine .call (.bind_second (.basic .cursor p) ?_)
    rw [hoperator]
    exact .bind_second (.basic (.act (m.hold 0)) p) (.bind_first .here)
  have hreached : (Code.symbol '+').ReachedFrom m Goal.expression.code p p := by
    refine .bind_first (.call (.bind_second (.basic .cursor p) ?_))
    rw [if_pos hsign]
    exact .bind_second (.basic (.act m.zero) p) hafter
  obtain ⟨-, hfound, -⟩ := guarded_expectations_succeed m .expression p
  obtain ⟨-, -, hfault⟩ := guarded_expectations_succeed m .expression begin
  have hoverflow : (attempt m .expression begin).1 = .error .overflow := by decide +kernel
  have hfails := parse_eq_error hoverflow
  refine ⟨hguarded, hreached, hfound '+' p hguarded hreached, by decide +kernel, _, hfails, ?_⟩
  obtain ⟨place, calls, hlogged, ⟨⟨what, -, hmissing⟩, -⟩ | hlast⟩ := hfault _ _ hfails
  · -- an overflow is not a thing that is missing
    have hcause := congrArg Fault.cause hmissing
    simp only [Cursor.missing, Fault.overflow] at hcause
    split at hcause <;> cases hcause
  · exact ⟨place, calls, hlogged, hlast⟩

end OnePass.Grammar
