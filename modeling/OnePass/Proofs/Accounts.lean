import Mathlib.Data.List.Forall2
import OnePass.Grammar
import OnePass.Proofs.Steps

/-!
# Accounts of runs

An *account* of a run says which steps a program handed to its semantics, where the cursor stood at
each, and what came of it (`account`). It is kept by a semantics that does what a given one does and
writes a log besides (`Clocked.logged`).

The calls of a recording carry numbers for values. To *replay* them on a semantics is to perform
their steps in order, with the values of that semantics put in for the numbers, until one fails
(`Clocked.replay`). A replay on the semantics that keeps a log ends like the one on the semantics
itself, and its log says which calls were replayed (`replay_logged`).
-/

namespace OnePass

variable {σ α β : Type}

/-- A step that was handed to a semantics. -/
structure Call (α : Type) where
  /-- Where the cursor stood. -/
  place : Cursor
  step : Step α
  /-- What came of it: a fault, or the value if the step has one. -/
  answer : Except Fault (Option α)

namespace Call

def Succeeds (call : Call α) : Prop := ∃ answer, call.answer = .ok answer

def value (call : Call α) : Option α :=
  match call.answer with
  | .ok answer => answer
  | .error _ => none

end Call

/-- The values that were made, in order. -/
def made (calls : List (Call α)) : List α := calls.filterMap Call.value

theorem made_append (xs ys : List (Call α)) : made (xs ++ ys) = made xs ++ made ys :=
  List.filterMap_append

/-- A call that succeeds makes the value that its step has, if it has one. -/
theorem made_cons_ok (place : Cursor) (step : Step α) (answer : Option α) (calls : List (Call α)) :
    made (⟨place, step, .ok answer⟩ :: calls) = answer.toList ++ made calls := by
  cases answer <;> rfl

theorem made_error (place : Cursor) (step : Step α) (fault : Fault) :
    made [⟨place, step, .error fault⟩] = [] := rfl

/-! ## Keeping a log -/

/-- A state with the calls that led to it, the oldest first. -/
structure Logged (σ α : Type) where
  state : σ
  /-- Where the cursor stood last. -/
  place : Cursor
  calls : List (Call α) := []

/-- Performs an action and writes down the step that it is for. -/
def Logged.note (step : Step α) (value : β → Option α) (action : Action σ β) :
    Action (Logged σ α) β := fun l =>
  match action l.state with
  | .ok b state => .ok b { l with state, calls := l.calls ++ [⟨l.place, step, .ok (value b)⟩] }
  | .error fault state =>
    .error fault { l with state, calls := l.calls ++ [⟨l.place, step, .error fault⟩] }

/-- The semantics that does the same and keeps a log. -/
def Clocked.logged (m : Clocked σ α) : Clocked (Logged σ α) α where
  calls := m.calls
  zero := Logged.note .zero some m.zero
  number digits := Logged.note (.number digits) some (m.number digits)
  load name := Logged.note (.load name) some (m.load name)
  call name := Logged.note (.call name) some (m.call name)
  hold lhs := Logged.note (.hold lhs) some (m.hold lhs)
  combine op lhs rhs := Logged.note (.combine op lhs rhs) some (m.combine op lhs rhs)
  assign name value := Logged.note (.assign name value) (fun _ => none) (m.assign name value)
  print name := Logged.note (.print name) (fun _ => none) (m.print name)
  tick cursor l := { l with state := m.tick cursor l.state, place := cursor }

theorem Logged.map_note (step : Step α) (f : β → Option α) (action : Action σ β) :
    f <$> note step f action = note step id (f <$> action) := by
  funext l
  rw [Action.map_apply, note, note, Action.map_apply]
  cases action l.state <;> rfl

/-- Keeping a log is no matter to what a step does. -/
theorem Clocked.perform_logged (m : Clocked σ α) (step : Step α) (l : Logged σ α) :
    m.logged.perform step l =
      match m.perform step l.state with
      | .ok answer state =>
        .ok answer { l with state, calls := l.calls ++ [⟨l.place, step, .ok answer⟩] }
      | .error fault state =>
        .error fault { l with state, calls := l.calls ++ [⟨l.place, step, .error fault⟩] } := by
  -- each step notes itself, whatever it makes of its value
  have hnote : m.logged.perform step = Logged.note step id (m.perform step) := by
    cases step <;> exact Logged.map_note _ _ _
  rw [hnote, Logged.note]
  cases m.perform step l.state <;> rfl

section

variable {m : Clocked σ α} {step : Step α} {c : Cursor} {s s' : σ}

/-- A step that succeeds is noted where the clock stood. -/
theorem Clocked.perform_logged_ok {answer : Option α}
    (h : m.perform step (m.tick c s) = .ok answer s') (place : Cursor) (log : List (Call α)) :
    m.logged.perform step (m.logged.tick c ⟨s, place, log⟩) =
      .ok answer ⟨s', c, log ++ [⟨c, step, .ok answer⟩]⟩ := by
  rw [perform_logged]
  simp only [logged, h]

/-- A step that fails is noted as well, with its fault. -/
theorem Clocked.perform_logged_error {fault : Fault}
    (h : m.perform step (m.tick c s) = .error fault s') (place : Cursor) (log : List (Call α)) :
    m.logged.perform step (m.logged.tick c ⟨s, place, log⟩) =
      .error fault ⟨s', c, log ++ [⟨c, step, .error fault⟩]⟩ := by
  rw [perform_logged]
  simp only [logged, h]

end

/-- A log only grows. -/
theorem Clocked.logged_along (m : Clocked σ α) :
    m.logged.Along fun l l' : Logged σ α => l.calls <+: l'.calls where
  refl l := List.prefix_rfl
  trans h h' := h.trans h'
  step step c l _ := by
    obtain ⟨s, place, log⟩ := l
    cases h : m.perform step (m.tick c s) with
    | ok answer s' =>
      rw [perform_logged_ok h]
      exact List.prefix_append _ _
    | error fault s' =>
      rw [perform_logged_error h]
      exact List.prefix_append _ _

/-- What a program did to a semantics, and what came of it. -/
structure Account (σ α : Type) where
  result : Except Fault Unit
  cursor : Cursor
  state : σ
  calls : List (Call α)

def Account.ofResult : EStateM.Result Fault (Progress (Logged σ α)) Unit → Account σ α
  | .ok () q => ⟨.ok (), q.cursor, q.state.state, q.state.calls⟩
  | .error fault q => ⟨.error fault, q.cursor, q.state.state, q.state.calls⟩

/-- The account of a program that is read from a source, with a semantics that starts in a state. -/
def account (m : Clocked σ α) (source : Source) (state : σ) : Account σ α :=
  .ofResult (Grammar.program m.logged (.start source { state, place := .start source }))

/-- The calls of an account are the log at the end of the run. -/
theorem account_calls (m : Clocked σ α) (source : Source) (state : σ) :
    (account m source state).calls = (Action.ended
      (Grammar.program m.logged (.start source ⟨state, .start source, []⟩))).state.calls := by
  unfold account
  cases Grammar.program m.logged (.start source ⟨state, .start source, []⟩) <;> rfl

/-- An end with the result, at the place. -/
def finished (result : Except Fault Unit) (cursor : Cursor) (state : σ) :
    EStateM.Result Fault (Progress σ) Unit :=
  match result with
  | .ok () => .ok () ⟨cursor, state⟩
  | .error fault => .error fault ⟨cursor, state⟩

/-- Where a run ended does not depend on how it ended. -/
theorem ended_finished (result : Except Fault Unit) (c : Cursor) (s : σ) :
    Action.ended (finished result c s) = ⟨c, s⟩ := by
  cases result <;> rfl

/-- The end of a run tells its result, its cursor and its state. -/
theorem finished_inj {result result' : Except Fault Unit} {c c' : Cursor} {s s' : σ}
    (h : finished result c s = finished result' c' s') : result = result' ∧ c = c' := by
  cases result <;> cases result' <;> cases h <;> exact ⟨rfl, rfl⟩

/-- A run that ends in a fault has it as its result. -/
theorem eq_error_of_finished {result : Except Fault Unit} {c : Cursor} {s : σ} {fault : Fault}
    {q : Progress σ} (h : finished result c s = .error fault q) : result = .error fault := by
  cases result <;> cases h
  rfl

/-! ## Replays -/

/-- The step with the values put in for their numbers, if there are that many. -/
def Step.fill (values : List α) : Step Nat → Option (Step α)
  | .zero => some .zero
  | .number digits => some (.number digits)
  | .load name => some (.load name)
  | .call name => some (.call name)
  | .hold lhs => (values[lhs]?).map .hold
  | .combine op lhs rhs => do
    let l ← values[lhs]?
    let r ← values[rhs]?
    return .combine op l r
  | .assign name value => (values[value]?).map (.assign name)
  | .print name => some (.print name)

/-- A value keeps its number while more are made. -/
theorem getElem?_append_of_eq_some {values : List α} {n : Nat} {a : α} (h : values[n]? = some a)
    (more : List α) : (values ++ more)[n]? = some a := by
  obtain ⟨hn, -⟩ := List.getElem?_eq_some_iff.1 h
  rw [List.getElem?_append_left hn, h]

/-- Values that are made later change nothing. -/
theorem Step.fill_append {values : List α} {step : Step Nat} {step' : Step α}
    (h : step.fill values = some step') (more : List α) :
    step.fill (values ++ more) = some step' := by
  cases step with
  | zero => exact h
  | number digits => exact h
  | load name => exact h
  | call name => exact h
  | print name => exact h
  -- a step with numbers finds its values where they were
  | hold lhs =>
    obtain ⟨a, ha, rfl⟩ := Option.map_eq_some_iff.1 h
    exact Option.map_eq_some_iff.2 ⟨a, getElem?_append_of_eq_some ha more, rfl⟩
  | assign name value =>
    obtain ⟨a, ha, rfl⟩ := Option.map_eq_some_iff.1 h
    exact Option.map_eq_some_iff.2 ⟨a, getElem?_append_of_eq_some ha more, rfl⟩
  | combine op lhs rhs =>
    obtain ⟨l, hl, h⟩ := Option.bind_eq_some_iff.1 h
    obtain ⟨r, hr, h⟩ := Option.bind_eq_some_iff.1 h
    show (do
      let l ← (values ++ more)[lhs]?
      let r ← (values ++ more)[rhs]?
      return Step.combine op l r) = some step'
    rw [getElem?_append_of_eq_some hl, getElem?_append_of_eq_some hr]
    exact h

/-- What came of a replay. -/
inductive Replay (σ α : Type) where
  /-- Every step was performed; these are the values so far. -/
  | complete (values : List α) (state : σ)
  /-- The step that was to be performed at the place failed. -/
  | failed (place : Cursor) (fault : Fault) (state : σ)
  /-- A step asked for a value that was never made. -/
  | stuck

def Replay.andThen (r : Replay σ α) (next : List α → σ → Replay σ α) : Replay σ α :=
  match r with
  | complete values state => next values state
  | failed place fault state => failed place fault state
  | stuck => stuck

/-- Performs the steps of calls, with the values made so far. -/
def Clocked.replay (m : Clocked σ α) : List (Call Nat) → List α → σ → Replay σ α
  | [], values, state => .complete values state
  | call :: calls, values, state =>
    match call.step.fill values with
    | none => .stuck
    | some step =>
      match m.perform step (m.tick call.place state) with
      | .ok answer state => m.replay calls (values ++ answer.toList) state
      | .error fault state => .failed call.place fault state

section

variable {m : Clocked σ α} {call : Call Nat} {values : List α} {step : Step α} {s s' : σ}

/-- A call that succeeds adds its value, and the replay goes on. -/
theorem replay_cons_ok {answer : Option α} (hfill : call.step.fill values = some step)
    (hstep : m.perform step (m.tick call.place s) = .ok answer s') (calls : List (Call Nat)) :
    m.replay (call :: calls) values s = m.replay calls (values ++ answer.toList) s' := by
  rw [Clocked.replay, hfill]
  simp only [hstep]

/-- A call that fails ends the replay at its place. -/
theorem replay_cons_error {fault : Fault} (hfill : call.step.fill values = some step)
    (hstep : m.perform step (m.tick call.place s) = .error fault s') (calls : List (Call Nat)) :
    m.replay (call :: calls) values s = .failed call.place fault s' := by
  rw [Clocked.replay, hfill]
  simp only [hstep]

/-- A call with a number that stands for nothing cannot be replayed. -/
theorem replay_cons_stuck (hfill : call.step.fill values = none) (calls : List (Call Nat)) :
    m.replay (call :: calls) values s = .stuck := by
  rw [Clocked.replay, hfill]

end

/-- Calls are replayed one list behind the other. -/
theorem replay_append (m : Clocked σ α) (xs ys : List (Call Nat)) (values : List α) (s : σ) :
    m.replay (xs ++ ys) values s = (m.replay xs values s).andThen (m.replay ys) := by
  induction xs generalizing values s with
  | nil => rfl
  | cons call calls ih =>
    rw [List.cons_append]
    cases hfill : call.step.fill values with
    | none => rw [replay_cons_stuck hfill, replay_cons_stuck hfill, Replay.andThen]
    | some step =>
      cases hstep : m.perform step (m.tick call.place s) with
      | ok answer s' => rw [replay_cons_ok hfill hstep, replay_cons_ok hfill hstep, ih]
      | error fault s' =>
        rw [replay_cons_error hfill hstep, replay_cons_error hfill hstep, Replay.andThen]

/-- The second semantics has the steps of the first, and more in its states. -/
structure Clocked.Refines {τ : Type} (m' : Clocked τ α) (m : Clocked σ α) (erase : τ → σ) :
    Prop where
  calls : m'.calls = m.calls
  step : ∀ (step : Step α) (c : Cursor) (t : τ),
    match m'.perform step (m'.tick c t) with
    | .ok answer t' => m.perform step (m.tick c (erase t)) = .ok answer (erase t')
    | .error fault t' => m.perform step (m.tick c (erase t)) = .error fault (erase t')

theorem refines_logged (m : Clocked σ α) : m.logged.Refines m Logged.state := by
  refine ⟨rfl, fun step c l => ?_⟩
  obtain ⟨s, place, log⟩ := l
  cases h : m.perform step (m.tick c s) with
  | ok answer s' => rw [Clocked.perform_logged_ok h]
  | error fault s' => rw [Clocked.perform_logged_error h]

/-- What more there is in the states is no matter to what comes of a replay. -/
theorem Clocked.Refines.replay {τ : Type} {m' : Clocked τ α} {m : Clocked σ α} {erase : τ → σ}
    (h : m'.Refines m erase) (calls : List (Call Nat)) (values : List α) (t : τ) :
    match m'.replay calls values t with
    | .complete values' t' => m.replay calls values (erase t) = .complete values' (erase t')
    | .failed place fault t' => m.replay calls values (erase t) = .failed place fault (erase t')
    | .stuck => m.replay calls values (erase t) = .stuck := by
  induction calls generalizing values t with
  | nil => rfl
  | cons call calls ih =>
    cases hfill : call.step.fill values with
    | none =>
      rw [replay_cons_stuck hfill, replay_cons_stuck hfill]
    | some step =>
      -- filling in looks at the values alone, so both replays perform the same step
      have hplain := h.step step call.place t
      cases hstep : m'.perform step (m'.tick call.place t) with
      | error fault t' =>
        rw [hstep] at hplain
        rw [replay_cons_error hfill hstep, replay_cons_error hfill hplain]
      | ok answer t' =>
        rw [hstep] at hplain
        rw [replay_cons_ok hfill hstep, replay_cons_ok hfill hplain]
        exact ih _ _

/-- The call was made where the numbered one was, with the values put in for their numbers. -/
structure Call.Fills (values : List α) (call : Call Nat) (call' : Call α) : Prop where
  place : call'.place = call.place
  step : call.step.fill values = some call'.step

/-- The two replays, without a log and with one, end alike, and the log has the calls, with their
values put in, up to the one that failed. -/
def LoggedAlike (calls : List (Call Nat)) (values : List α) (log : List (Call α)) :
    Replay σ α → Replay (Logged σ α) α → Prop
  | .complete values' s', logged => ∃ new place,
    logged = .complete values' ⟨s', place, log ++ new⟩ ∧ values' = values ++ made new ∧
      (∀ call ∈ new, call.Succeeds) ∧ List.Forall₂ (Call.Fills values') calls new
  | .failed place fault s', logged => ∃ earlier step,
    logged = .failed place fault ⟨s', place, log ++ (earlier ++ [⟨place, step, .error fault⟩])⟩ ∧
      (∀ call ∈ earlier, call.Succeeds) ∧
      List.Forall₂ (Call.Fills (values ++ made earlier)) (calls.take (earlier.length + 1))
        (earlier ++ [⟨place, step, .error fault⟩])
  | .stuck, logged => logged = .stuck

/-- The first call of a replay that goes on comes first in its log. -/
theorem LoggedAlike.cons {call : Call Nat} {calls : List (Call Nat)} {values : List α}
    {log : List (Call α)} {step : Step α} {answer : Option α} {r : Replay σ α}
    {r' : Replay (Logged σ α) α} (hfill : call.step.fill values = some step)
    (h : LoggedAlike calls (values ++ answer.toList)
      (log ++ [⟨call.place, step, .ok answer⟩]) r r') :
    LoggedAlike (call :: calls) values log r r' := by
  have hsucceeds : Call.Succeeds ⟨call.place, step, .ok answer⟩ := ⟨answer, rfl⟩
  cases r with
  | stuck => exact h
  | complete values' s' =>
    obtain ⟨new, place, rfl, rfl, hnew, hfills⟩ := h
    -- the call comes first in the log, and its value is there for all later ones
    refine ⟨⟨call.place, step, .ok answer⟩ :: new, place, ?_, ?_, ?_, ?_⟩
    · simp
    · rw [made_cons_ok, List.append_assoc]
    · exact List.forall_mem_cons.2 ⟨hsucceeds, hnew⟩
    · refine .cons ⟨rfl, ?_⟩ hfills
      rw [List.append_assoc]
      exact Step.fill_append hfill _
  -- the call that failed stays the last one of the log
  | failed place fault s' =>
    obtain ⟨earlier, last, rfl, hearlier, hfills⟩ := h
    refine ⟨⟨call.place, step, .ok answer⟩ :: earlier, last, ?_, ?_, ?_⟩
    · simp
    · exact List.forall_mem_cons.2 ⟨hsucceeds, hearlier⟩
    · rw [made_cons_ok, ← List.append_assoc, List.length_cons, List.take_succ_cons,
        List.cons_append]
      refine .cons ⟨rfl, ?_⟩ hfills
      rw [List.append_assoc]
      exact Step.fill_append hfill _

/-- The replay with a log ends like the one without, and its log is the calls that were replayed.
Induction on the calls, for any log in front. -/
theorem replay_logged (m : Clocked σ α) (calls : List (Call Nat)) (values : List α) (s : σ)
    (place : Cursor) (log : List (Call α)) :
    LoggedAlike calls values log (m.replay calls values s)
      (m.logged.replay calls values ⟨s, place, log⟩) := by
  induction calls generalizing values s place log with
  | nil =>
    refine ⟨[], place, ?_, ?_, List.forall_mem_nil _, .nil⟩
    · rw [List.append_nil]
      rfl
    · exact (List.append_nil _).symm
  | cons call calls ih =>
    cases hfill : call.step.fill values with
    | none =>
      rw [replay_cons_stuck hfill, replay_cons_stuck hfill]
      rfl
    | some step =>
      cases hstep : m.perform step (m.tick call.place s) with
      | error fault s' =>
        have hlogged := Clocked.perform_logged_error hstep place log
        rw [replay_cons_error hfill hstep, replay_cons_error hfill hlogged]
        -- a failing call is noted with its fault, and nothing behind it
        refine ⟨[], step, rfl, List.forall_mem_nil _, ?_⟩
        exact .cons ⟨rfl, Step.fill_append hfill _⟩ .nil
      | ok answer s' =>
        have hlogged := Clocked.perform_logged_ok hstep place log
        rw [replay_cons_ok hfill hstep, replay_cons_ok hfill hlogged]
        exact (ih _ s' _ _).cons hfill

end OnePass
