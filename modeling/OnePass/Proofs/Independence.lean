import OnePass.Proofs.Accounts
import OnePass.Proofs.Compilation
import OnePass.Proofs.RoundTrip

/-!
# What a text does to any semantics

The grammar decides by characters only, never by values. So the calls that a text makes to a
recording (`transcript`) are the calls that it makes to every semantics, at the same places and with
the values of that semantics, up to the first call that fails; the fault of that call ends the
program where the cursor stands (`program_eq_replay`, `account_follows`).

The two runs are compared production by production (`Mirrors`). They have different values, which
are related by the values made so far: number `n` of the recording is the `n`-th value of the other
run. The recording goes on where the other run has failed, so at every step something has to be said
about the rest of the recording: its log only grows, as it does for whatever is `Formed`.
-/

namespace OnePass

variable {σ α β γ δ : Type}

/-- The semantics that notes its steps and never fails, with a log that has the places. -/
def recorder (calls : Bool) : Clocked (Logged Trace Nat) Nat :=
  (Trace.semantics (.ofBool calls)).timeless.logged

/-- What a source makes of a recording that never fails. -/
def transcript (calls : Bool) (source : Source) : Account Trace Nat :=
  account (Trace.semantics (.ofBool calls)).timeless source {}

/-- The number stands for the value, which was the one made after so many others. -/
def StandsFor (values : List α) (n : Nat) (a : α) : Prop := values[n]? = some a

/-- A number keeps its value while more are made. -/
theorem StandsFor.mono {w values : List α} {n : Nat} {a : α} (h : StandsFor w n a)
    (hw : w <+: values) : StandsFor values n a := by
  obtain ⟨more, rfl⟩ := hw
  exact getElem?_append_of_eq_some h more

/-- The log of a recording only grows. -/
theorem log_along (calls : Bool) : (recorder calls).Along fun l l' => l.calls <+: l'.calls :=
  Clocked.logged_along _

namespace Grammar

/-- How a run ends beside a recording, given what came of replaying the calls of the recording. -/
def EndsLike (rel : List α → β → γ → Prop) (values : List α)
    (recorded : EStateM.Result Fault (Progress (Logged Trace Nat)) β)
    (r : EStateM.Result Fault (Progress σ) γ) : Replay σ α → Prop
  | .stuck => False
  | .failed place fault s => r = .error fault ⟨place, s⟩
  | .complete values' s =>
    values <+: values' ∧ values'.length = (Action.ended recorded).state.state.values ∧
      match recorded with
      | .ok b q => ∃ g, r = .ok g ⟨q.cursor, s⟩ ∧ rel values' b g
      | .error fault q => r = .error fault ⟨q.cursor, s⟩

/-- From the same cursor, the parser `y` does what a replay of the calls does that the recording
parser `x` adds to its log. The values of `w` were made before. -/
def Mirrors (m : Clocked σ α) (w : List α) (x : Parser (Logged Trace Nat) β) (y : Parser σ γ)
    (rel : List α → β → γ → Prop) : Prop :=
  ∀ (c : Cursor) (l : Logged Trace Nat) (values : List α) (s : σ), w <+: values →
    values.length = l.state.values →
    ∃ calls, (Action.ended (x ⟨c, l⟩)).state.calls = l.calls ++ calls ∧
      EndsLike rel values (x ⟨c, l⟩) (y ⟨c, s⟩) (m.replay calls values s)

variable {m : Clocked σ α} {w : List α} {rel : List α → β → γ → Prop}

/-! ## What parsers are made of -/

theorem mirrors_pure {b : β} {g : γ} (h : ∀ values, w <+: values → rel values b g) :
    Mirrors m w (pure b) (pure g) rel := fun _ _ values _ hvalues hlength =>
  ⟨[], (List.append_nil _).symm, List.prefix_rfl, hlength, g, rfl, h values hvalues⟩

/-- What is missing in one run is missing in the other. -/
theorem mirrors_missing (what : String) : Mirrors m w (missing what) (missing what) rel :=
  fun _ _ _ _ _ hlength => ⟨[], (List.append_nil _).symm, List.prefix_rfl, hlength, rfl⟩

theorem Mirrors.cursor_bind {f : Cursor → Parser (Logged Trace Nat) β} {g : Cursor → Parser σ γ}
    (h : ∀ c, Mirrors m w (f c) (g c) rel) : Mirrors m w (cursor >>= f) (cursor >>= g) rel :=
  fun c l values s hvalues hlength => h c c l values s hvalues hlength

/-- A lexeme is read alike in both runs, and no call is made. -/
theorem Mirrors.scan_bind {lexeme : Scan δ} {f : δ → Parser (Logged Trace Nat) β}
    {g : δ → Parser σ γ} (h : ∀ d, Mirrors m w (f d) (g d) rel) :
    Mirrors m w (scan lexeme >>= f) (scan lexeme >>= g) rel := by
  intro c l values s hvalues hlength
  rw [bind_apply, bind_apply, scan, scan]
  cases lexeme c with
  | ok d c' => exact h d c' l values s hvalues hlength
  | error fault c' => exact ⟨[], (List.append_nil _).symm, List.prefix_rfl, hlength, rfl⟩

/-- Ends that are compared by more values are also compared by fewer. -/
theorem EndsLike.mono {values values' : List α}
    {recorded : EStateM.Result Fault (Progress (Logged Trace Nat)) β}
    {r : EStateM.Result Fault (Progress σ) γ} {replayed : Replay σ α}
    (h : EndsLike rel values' recorded r replayed) (hvalues : values <+: values') :
    EndsLike rel values recorded r replayed := by
  cases replayed with
  | stuck => exact h
  | failed place fault s => exact h
  | complete values'' s => exact ⟨hvalues.trans h.1, h.2⟩

/-- Where the recording has failed, nothing more is done. -/
theorem EndsLike.bind_error {ε : Type} {rel' : List α → δ → ε → Prop} {values : List α}
    {fault : Fault} {q : Progress (Logged Trace Nat)} {y : Parser σ γ} {g : γ → Parser σ ε}
    {p : Progress σ} {replayed : Replay σ α}
    (h : EndsLike rel values (.error fault q) (y p) replayed) :
    EndsLike rel' values (.error fault q) ((y >>= g) p) replayed := by
  rw [bind_apply]
  cases replayed with
  | stuck => exact h
  | failed place fault' s =>
    rw [show y p = _ from h]
    rfl
  | complete values' s =>
    obtain ⟨hextends, hlength, hy⟩ := h
    rw [show y p = _ from hy]
    exact ⟨hextends, hlength, rfl⟩

/-- One step behind another. Where the other run fails in the first, the recording goes on with the
second, which only adds to its log. -/
theorem Mirrors.bind {ε : Type} {rel' : List α → δ → ε → Prop}
    {x : Parser (Logged Trace Nat) β} {y : Parser σ γ} {f : β → Parser (Logged Trace Nat) δ}
    {g : γ → Parser σ ε} (noted : Bool) (hx : Mirrors m w x y rel)
    (hformed : ∀ b, Formed (recorder noted) (f b))
    (hf : ∀ w' b c, w <+: w' → rel w' b c → Mirrors m w' (f b) (g c) rel') :
    Mirrors m w (x >>= f) (y >>= g) rel' := by
  intro c l values s hvalues hlength
  obtain ⟨calls, hcalls, hends⟩ := hx c l values s hvalues hlength
  rw [bind_apply]
  cases hrecorded : x ⟨c, l⟩ with
  | error fault q =>
    rw [hrecorded] at hcalls hends
    exact ⟨calls, hcalls, hends.bind_error⟩
  | ok b q =>
    rw [hrecorded] at hcalls hends
    have hcalls : q.state.calls = l.calls ++ calls := hcalls
    cases hreplay : m.replay calls values s with
    | stuck => rw [hreplay] at hends; exact hends.elim
    | failed place fault s' =>
      rw [hreplay] at hends
      -- the other run has failed, and of the recording nothing is said but that it goes on
      obtain ⟨more, hmore⟩ := (hformed b).moves (log_along noted) q
      refine ⟨calls ++ more, ?_, ?_⟩
      · rw [← List.append_assoc, ← hcalls]
        exact hmore.symm
      · rw [replay_append, hreplay, bind_apply, show y ⟨c, s⟩ = _ from hends]
        rfl
    | complete values' s' =>
      rw [hreplay] at hends
      obtain ⟨hextends, hlength', g', hy, hrel⟩ := hends
      -- both go on, with the values that the first part has added
      obtain ⟨calls', hcalls', hends'⟩ :=
        hf values' b g' (hvalues.trans hextends) hrel q.cursor q.state values' s' List.prefix_rfl
          hlength'
      refine ⟨calls ++ calls', ?_, ?_⟩
      · rw [← List.append_assoc, ← hcalls]
        exact hcalls'
      · rw [replay_append, hreplay, bind_apply, hy]
        exact hends'.mono hextends

/-- What is done with the only call that was made. -/
theorem replay_singleton {call : Call Nat} {values : List α} {step : Step α} {s : σ}
    (hfill : call.step.fill values = some step) :
    m.replay [call] values s =
      match m.perform step (m.tick call.place s) with
      | .ok answer s' => .complete (values ++ answer.toList) s'
      | .error fault s' => .failed call.place fault s' := by
  cases hstep : m.perform step (m.tick call.place s) with
  | ok answer s' => exact replay_cons_ok hfill hstep []
  | error fault s' => exact replay_cons_error hfill hstep []

/-- A step that has a value. The recording gives out the number of the value that comes next. -/
theorem mirrors_value {calls : Bool} (step : Step Nat) (step' : Step α)
    {x : Action (Logged Trace Nat) Nat} {y : Action σ α} (hfill : step.fill w = some step')
    (hvalue : step.hasValue = true) (hx : x = Logged.note step some (Trace.note none step))
    (hy : m.perform step' = some <$> y) :
    Mirrors m w (act (recorder calls) x) (act m y) StandsFor := by
  rintro c l values s ⟨more, rfl⟩ hlength
  obtain ⟨t', hnote, hnoted⟩ := Trace.note_eq_ok step l.state
  rw [hvalue, if_pos rfl] at hnoted
  have hrecorded : act (recorder calls) x ⟨c, l⟩ = .ok l.state.values
      ⟨c, t', c, l.calls ++ [⟨c, step, .ok (some l.state.values)⟩]⟩ := by
    have htick : (recorder calls).tick c l = { l with place := c } := rfl
    rw [act, hx, htick, Logged.note]
    simp only [hnote]
  rw [hrecorded]
  refine ⟨_, rfl, ?_⟩
  rw [replay_singleton (Step.fill_append hfill more), hy, Action.map_apply, act]
  cases y (m.tick c s) with
  | error fault s' => rfl
  | ok a s' =>
    -- the value gets the number of the values made before, in both runs
    have hnext : t'.values = (w ++ more).length + 1 := by rw [hlength]; exact hnoted.values
    refine ⟨List.prefix_append _ _, ?_, a, rfl, ?_⟩
    · show (w ++ more ++ [a]).length = t'.values
      rw [hnext, List.length_append, List.length_singleton]
    · rw [← hlength]
      exact List.getElem?_concat_length

/-- A step that has no value. -/
theorem mirrors_effect {calls : Bool} (step : Step Nat) (step' : Step α)
    {x : Action (Logged Trace Nat) Unit} {y : Action σ Unit} (hfill : step.fill w = some step')
    (hvalue : step.hasValue = false)
    (hx : x = Logged.note step (fun _ => none) ((fun _ => ()) <$> Trace.note none step))
    (hy : m.perform step' = (fun _ => none) <$> y) :
    Mirrors m w (act (recorder calls) x) (act m y) fun _ _ _ => True := by
  rintro c l values s ⟨more, rfl⟩ hlength
  obtain ⟨t', hnote, hnoted⟩ := Trace.note_map_eq_ok step hvalue l.state
  have hrecorded : act (recorder calls) x ⟨c, l⟩ = .ok ()
      ⟨c, t', c, l.calls ++ [⟨c, step, .ok none⟩]⟩ := by
    have htick : (recorder calls).tick c l = { l with place := c } := rfl
    rw [act, hx, htick, Logged.note]
    simp only [hnote]
  rw [hrecorded]
  refine ⟨_, rfl, ?_⟩
  rw [replay_singleton (Step.fill_append hfill more), hy, Action.map_apply, act]
  cases y (m.tick c s) with
  | error fault s' => rfl
  | ok a s' =>
    have hnext : t'.values = (w ++ more).length := by rw [hlength]; exact hnoted.values
    refine ⟨List.prefix_append _ _, ?_, a, rfl, trivial⟩
    show (w ++ more ++ []).length = t'.values
    rw [hnext, List.append_nil]

/-! ## Productions -/

variable {calls : Bool}

/-- Chains of operands that mirror each other do so as well, whatever was computed before. Induction
on the bound. -/
theorem mirrors_chainWithin (level : Operator → Bool) {x : Parser (Logged Trace Nat) Nat}
    {y : Parser σ α} (hx : ∀ w : List α, Mirrors m w x y StandsFor)
    (hformed : Formed (recorder calls) x) (n : Nat) {lhs : Nat} {a : α}
    (hlhs : StandsFor w lhs a) :
    Mirrors m w (chainWithin (recorder calls) level x n lhs) (chainWithin m level y n a)
      StandsFor := by
  induction n generalizing w lhs a with
  | zero => exact mirrors_pure fun values hw => hlhs.mono hw
  | succ n ih =>
    refine Mirrors.cursor_bind fun c => ?_
    cases c.operator?.filter level with
    | none => exact mirrors_pure fun values hw => hlhs.mono hw
    | some op =>
      have hchain := formed_chainWithin level hformed n
      have hcombined (held rhs : Nat) := (formed_act (.combine op held rhs) rfl).bind hchain
      have hhold : (Step.hold lhs).fill w = some (.hold a) :=
        Option.map_eq_some_iff.2 ⟨a, hlhs, rfl⟩
      refine (mirrors_value _ _ hhold rfl rfl rfl).bind calls (fun held => ?_)
        fun w' held b _ hheld => ?_
      · exact (Formed.symbol _ (isSymbol_toChar op)).bind fun _ =>
          hformed.bind fun rhs => hcombined held rhs
      · refine Mirrors.scan_bind fun _ => ?_
        refine (hx w').bind calls (fun rhs => hcombined held rhs) fun w'' rhs d hw hrhs => ?_
        -- the operand was read after the value was put aside, which still has its number
        have hcombine : (Step.combine op held rhs).fill w'' = some (.combine op b d) := by
          simp only [Step.fill]
          rw [hheld.mono hw, hrhs]
          rfl
        exact (mirrors_value _ _ hcombine rfl rfl rfl).bind calls hchain fun _ v e _ hv => ih hv

theorem mirrors_termWithin {x : Parser (Logged Trace Nat) Nat} {y : Parser σ α}
    (hx : ∀ w : List α, Mirrors m w x y StandsFor)
    (hformed : Formed (recorder calls) x) (n : Nat) :
    Mirrors m w (termWithin (recorder calls) x n) (termWithin m y n) StandsFor := by
  refine (hx w).bind calls (formed_chainWithin _ hformed n) fun w' lhs a _ hlhs => ?_
  exact mirrors_chainWithin _ hx hformed n hlhs

/-- Expressions mirror each other, with a sign in front or without. -/
theorem mirrors_expressionWithin {x : Parser (Logged Trace Nat) Nat} {y : Parser σ α}
    (hx : ∀ w : List α, Mirrors m w x y StandsFor)
    (hformed : Formed (recorder calls) x) (n : Nat) :
    Mirrors m w (expressionWithin (recorder calls) x n) (expressionWithin m y n) StandsFor := by
  have hterm (w : List α) := mirrors_termWithin (w := w) hx hformed n
  have hterms := formed_termWithin hformed n
  have hchain := formed_chainWithin Operator.isAdditive hterms n
  refine Mirrors.cursor_bind fun c => ?_
  cases c.isAtAdditive with
  | true =>
    refine (mirrors_value .zero .zero rfl rfl rfl rfl).bind calls hchain ?_
    exact fun w' lhs a _ hlhs => mirrors_chainWithin _ hterm hterms n hlhs
  | false =>
    refine (hterm w).bind calls hchain ?_
    exact fun w' lhs a _ hlhs => mirrors_chainWithin _ hterm hterms n hlhs

/-- A variable or a call is read by both, if both have calls or neither has. -/
theorem mirrors_reference (hcalls : m.calls = calls) :
    Mirrors m w (reference (recorder calls)) (reference m) StandsFor := by
  refine Mirrors.scan_bind fun name => Mirrors.cursor_bind fun c => ?_
  have hsame : (recorder calls).calls = calls := Trace.calls_ofBool calls
  rw [hsame, hcalls]
  cases hcall : calls && c.isAt '(' with
  | true =>
    -- only a recording that has calls notes them
    obtain rfl : calls = true := (Bool.and_eq_true_iff.1 hcall).1
    refine Mirrors.scan_bind fun _ => Mirrors.scan_bind fun _ => ?_
    exact mirrors_value (.call name) (.call name) rfl rfl rfl rfl
  | false => exact mirrors_value (.load name) (.load name) rfl rfl rfl rfl

/-- Factors mirror each other. Induction on the bound, for any values made before. -/
theorem mirrors_factorWithin (hcalls : m.calls = calls) (n : Nat) :
    Mirrors m w (factorWithin (recorder calls) n) (factorWithin m n) StandsFor := by
  induction n generalizing w with
  | zero => exact mirrors_missing _
  | succ n ih =>
    have hfactor := formed_factorWithin (m := recorder calls) n
    refine Mirrors.cursor_bind fun c => ?_
    cases c.isAt '(' with
    | true =>
      refine Mirrors.scan_bind fun _ => ?_
      -- in parentheses the bound is smaller by one
      refine (mirrors_expressionWithin (fun w => ih) hfactor n).bind calls (fun value => ?_) ?_
      · exact (Formed.symbol _).bind fun _ => .pure value
      · intro w' value a _ hvalue
        exact Mirrors.scan_bind fun _ => mirrors_pure fun values hw => hvalue.mono hw
    | false =>
      cases c.isAtLetter with
      | true => exact mirrors_reference hcalls
      | false =>
        refine Mirrors.scan_bind fun digits => ?_
        exact mirrors_value (.number digits) (.number digits) rfl rfl rfl rfl

/-- A value of the recording that is assigned, and the value that it stands for. -/
theorem mirrors_assign (name : String) {n : Nat} {a : α} (h : StandsFor w n a) :
    Mirrors m w (act (recorder calls) ((recorder calls).assign name n)) (act m (m.assign name a))
      fun _ _ _ => True :=
  mirrors_effect (.assign name n) (.assign name a)
    (Option.map_eq_some_iff.2 ⟨a, h, rfl⟩) rfl rfl rfl

/-- The value of an assignment is handed over by its number, which stands for it. -/
theorem mirrors_assignmentWithin (hcalls : m.calls = calls) (n : Nat) :
    Mirrors m w (assignmentWithin (recorder calls) n) (assignmentWithin m n)
      fun _ _ _ => True := by
  have hfactor := formed_factorWithin (m := recorder calls) n
  refine Mirrors.scan_bind fun name => Mirrors.scan_bind fun _ => ?_
  refine (mirrors_expressionWithin (fun w => mirrors_factorWithin hcalls n) hfactor n).bind calls
    ?_ ?_
  · exact fun value => formed_act (.assign name value) rfl
  · exact fun w' value a _ hvalue => mirrors_assign name hvalue

theorem mirrors_output :
    Mirrors m w (output (recorder calls)) (output m) fun _ _ _ => True :=
  Mirrors.scan_bind fun _ => Mirrors.scan_bind fun name =>
    mirrors_effect (.print name) (.print name) rfl rfl rfl rfl

theorem mirrors_input : Mirrors m w (input (recorder calls)) (input m) fun _ _ _ => True := by
  refine Mirrors.scan_bind fun _ => Mirrors.scan_bind fun name => Mirrors.scan_bind fun digits => ?_
  refine (mirrors_value (.number digits) (.number digits) rfl rfl rfl rfl).bind calls ?_ ?_
  · exact fun value => formed_act (.assign name value) rfl
  · exact fun w' value a _ hvalue => mirrors_assign name hvalue

/-- Statements mirror each other, and leave no value to be compared. -/
theorem mirrors_statementWithin (hcalls : m.calls = calls) (n : Nat) :
    Mirrors m w (statementWithin (recorder calls) n) (statementWithin m n)
      fun _ _ _ => True := by
  refine Mirrors.cursor_bind fun c => ?_
  cases c.isAt '!' with
  | true => exact mirrors_output
  | false =>
    cases c.isAt '?' with
    | true => exact mirrors_input
    | false => exact mirrors_assignmentWithin hcalls n

/-- So do programs, statement by statement. -/
theorem mirrors_programWithin (hcalls : m.calls = calls) (n : Nat) :
    Mirrors m w (programWithin (recorder calls) n) (programWithin m n) fun _ _ _ => True := by
  induction n generalizing w with
  | zero => exact mirrors_missing _
  | succ n ih =>
    refine (mirrors_statementWithin hcalls _).bind calls (fun _ => ?_) fun w' _ _ _ _ => ?_
    · refine Formed.lineEnd.bind fun _ => .cursor (fun c => ?_) fun c c' hlook => by
        simp only [Cursor.isAt_congr hlook ';']
      split
      · exact .pure ()
      · exact formed_programWithin n
    · refine Mirrors.scan_bind fun _ => Mirrors.cursor_bind fun c => ?_
      cases c.isAt ';' with
      | true => exact mirrors_pure fun _ _ => trivial
      | false => exact ih

/-! ## Whole programs -/

/-- A program does to a semantics what a replay of its transcript does. -/
theorem program_eq_replay (m : Clocked σ α) (source : Source) (state : σ) :
    match m.replay (transcript m.calls source).calls [] state with
    | .complete _ state' => program m (.start source state) =
        finished (transcript m.calls source).result (transcript m.calls source).cursor state'
    | .failed place fault state' => program m (.start source state) = .error fault ⟨place, state'⟩
    | .stuck => False := by
  -- the recording starts without values, as the other run does
  obtain ⟨calls, hcalls, hends⟩ := mirrors_programWithin (w := []) (m := m) rfl
    (Cursor.start source).unread.length (.start source) ⟨{}, .start source, []⟩ [] state
    List.prefix_rfl rfl
  change EndsLike _ _ (program (recorder m.calls) (.start source ⟨{}, .start source, []⟩))
    (program m (.start source state)) _ at hends
  change (Action.ended (program (recorder m.calls)
    (.start source ⟨{}, .start source, []⟩))).state.calls = calls at hcalls
  have htranscript : transcript m.calls source =
    .ofResult (program (recorder m.calls) (.start source ⟨{}, .start source, []⟩)) := rfl
  have hsame : (transcript m.calls source).calls = calls := (account_calls _ _ _).trans hcalls
  rw [hsame]
  cases hreplay : m.replay calls [] state with
  | stuck => rw [hreplay] at hends; exact hends
  | failed place fault state' => rw [hreplay] at hends; exact hends
  | complete values state' =>
    rw [hreplay] at hends
    rw [htranscript]
    obtain ⟨-, -, hends⟩ := hends
    cases hrecorded : program (recorder m.calls) (.start source ⟨{}, .start source, []⟩) with
    | error fault q => rw [hrecorded] at hends; exact hends
    | ok b q =>
      rw [hrecorded] at hends
      obtain ⟨_, hok, -⟩ := hends
      exact hok

end Grammar

/-! ## The recording -/

/-- Every step that reaches a recording is noted, and answered by a number if it has a value. -/
theorem Trace.perform_eq {calls : Bool} {step : Step Nat} (h : step.isCall = true → calls = true) :
    (Trace.semantics (.ofBool calls)).perform step =
      (fun n => if step.hasValue then some n else none) <$> Trace.note none step := by
  cases step with
  | call name =>
    obtain rfl := h rfl
    rfl
  | zero => rfl
  | number digits => rfl
  | load name => rfl
  | hold lhs => rfl
  | combine op lhs rhs => rfl
  | assign name value => rfl
  | print name => rfl

/-- All calls succeeded, and the values are the numbers from 0. -/
structure Numbered (l : Logged Trace Nat) : Prop where
  succeeds : ∀ call ∈ l.calls, call.Succeeds
  made : made l.calls = List.range l.state.values

/-- Each step of a recording keeps it numbered: its value has the next number. -/
theorem numbered_along (calls : Bool) :
    (recorder calls).Along fun l l' => Numbered l → Numbered l' where
  refl l := id
  trans h h' := h' ∘ h
  step step c l hcall hl := by
    obtain ⟨t, place, log⟩ := l
    obtain ⟨t', hnote, hnoted⟩ := Trace.note_eq_ok step t
    have hsame : (recorder calls).calls = calls := Trace.calls_ofBool calls
    have hstep : (Trace.semantics (.ofBool calls)).timeless.perform step t =
        .ok (if step.hasValue then some t.values else none) t' := by
      show (Trace.semantics (.ofBool calls)).perform step t = _
      rw [Trace.perform_eq (hsame ▸ hcall), Action.map_apply, hnote]
    rw [recorder, Clocked.perform_logged_ok hstep]
    refine ⟨?_, ?_⟩
    · exact List.forall_mem_append.2 ⟨hl.succeeds, List.forall_mem_singleton.2 ⟨_, rfl⟩⟩
    · show made (log ++ [_]) = List.range t'.values
      rw [made_append, made_cons_ok, show made log = _ from hl.made, hnoted.values]
      cases step.hasValue with
      | true => exact List.range_succ.symm
      | false => exact List.append_nil _

/-- The calls of a transcript all succeed, and their values are numbered as they are made. -/
theorem transcript_numbered (calls : Bool) (source : Source) :
    (∀ call ∈ (transcript calls source).calls, call.Succeeds) ∧
      made (transcript calls source).calls =
        List.range (made (transcript calls source).calls).length := by
  have hmoves := Grammar.moves_program (numbered_along calls)
    (.start source ⟨{}, .start source, []⟩) ⟨List.forall_mem_nil _, rfl⟩
  rw [transcript, account_calls, ← recorder]
  refine ⟨hmoves.succeeds, ?_⟩
  rw [hmoves.made, List.length_range]

/-! ## Listings -/

/-- The code of a step does not depend on its values. -/
theorem Listing.code_fill {values : List α} {step : Step Nat} {step' : Step α}
    (h : step.fill values = some step') : code step' = code step := by
  cases step with
  | zero => cases h; rfl
  | number digits => cases h; rfl
  | load name => cases h; rfl
  | call name => cases h; rfl
  | print name => cases h; rfl
  | hold lhs =>
    obtain ⟨a, -, rfl⟩ := Option.map_eq_some_iff.1 h
    rfl
  | assign name value =>
    obtain ⟨a, -, rfl⟩ := Option.map_eq_some_iff.1 h
    rfl
  | combine op lhs rhs =>
    obtain ⟨l, -, h⟩ := Option.bind_eq_some_iff.1 h
    obtain ⟨r, -, h⟩ := Option.bind_eq_some_iff.1 h
    cases h
    cases op <;> rfl

/-- To perform a step of compilation is to compile it. -/
theorem Listing.perform_eq (step : Step Unit) :
    ∃ f : Unit → Option Unit, semantics.perform step = f <$> compile step := by
  cases step <;> exact ⟨_, rfl⟩

/-- With room for everything a replay writes the code of the calls. -/
theorem Listing.replay_emits (calls : List (Call Nat)) (values : List Unit) (s : Writing Nat)
    (hsink : s.sink.Unlimited) :
    match semantics.timeless.replay calls values s with
    | .complete _ s' =>
      s'.sink.text = s.sink.text ++ listing (calls.flatMap fun call => code call.step)
    | .failed _ _ _ => False
    | .stuck => True := by
  induction calls generalizing values s with
  | nil => exact String.append_empty.symm
  | cons call calls ih =>
    cases hfill : call.step.fill values with
    | none =>
      rw [replay_cons_stuck hfill]
      trivial
    | some step =>
      obtain ⟨s', hcompile, -, hsink', htext⟩ := emits_compile step s hsink
      obtain ⟨f, hf⟩ := perform_eq step
      have hstep : semantics.timeless.perform step (semantics.timeless.tick call.place s) =
          .ok (f ()) s' := by
        show semantics.perform step s = _
        rw [hf, Action.map_apply, hcompile]
      rw [replay_cons_ok hfill hstep]
      -- the rest is written behind the lines of this step
      have hrest := ih (values ++ (f ()).toList) s' hsink'
      cases hreplay : semantics.timeless.replay calls (values ++ (f ()).toList) s' with
      | stuck => trivial
      | failed place fault s'' => rw [hreplay] at hrest; exact hrest
      | complete values' s'' =>
        rw [hreplay] at hrest
        show s''.sink.text = _
        rw [show s''.sink.text = _ from hrest, htext, List.flatMap_cons, listing_append,
          code_fill hfill, String.append_assoc]

/-- What was written is what the program had written when it came to its end. -/
theorem text_execute {μ : Type} (m : Semantics (Writing μ) α) (memory : μ) (source : Source)
    (sink : Sink) :
    (execute m.timeless memory source sink).sink.text =
      (Action.ended (Grammar.program m.timeless
        (.start source ⟨memory, sink⟩))).state.sink.text := by
  cases hprogram : Grammar.program m.timeless (.start source ⟨memory, sink⟩) with
  | error fault p =>
    rw [execute_eq_error hprogram]
    rfl
  | ok _ p =>
    rw [execute_of_ok hprogram]
    exact p.state.sink.text_flushed

/-- What is reported of a program that came to an end, with a sink that takes everything. -/
theorem execute_of_finished {μ : Type} {m : Semantics (Writing μ) α} {memory : μ} {source : Source}
    {sink : Sink} {result : Except Fault Unit} {c : Cursor} {s : Writing μ}
    (h : Grammar.program m.timeless (.start source ⟨memory, sink⟩) = finished result c s)
    (hs : s.sink.Unlimited) :
    let report := execute m.timeless memory source sink
    report.result = (result.map fun _ => s.memory) ∧ report.sink.text = s.sink.text ∧
      report.source = c.source := by
  intro report
  cases result with
  | ok _ =>
    rw [show report = _ from execute_eq_ok h hs]
    exact ⟨rfl, s.sink.text_flushed, rfl⟩
  | error fault =>
    rw [show report = _ from execute_eq_error h]
    exact ⟨rfl, rfl, rfl⟩

/-- A listing is the code of the calls of its transcript. -/
theorem text_compile (source : Source) :
    (compile source).sink.text =
      listing ((transcript true source).calls.flatMap fun call => Listing.code call.step) := by
  have hreplay := Grammar.program_eq_replay Listing.semantics.timeless source ⟨0, {}⟩
  have hcalls : Listing.semantics.timeless.calls = true := rfl
  rw [hcalls] at hreplay
  have hemits := Listing.replay_emits (transcript true source).calls [] ⟨0, {}⟩ Sink.unlimited_empty
  rw [compile, text_execute]
  cases hresult : Listing.semantics.timeless.replay (transcript true source).calls [] ⟨0, {}⟩ with
  | stuck => rw [hresult] at hreplay; exact hreplay.elim
  | failed place fault s => rw [hresult] at hemits; exact hemits.elim
  | complete values s =>
    rw [hresult] at hreplay hemits
    simp only at hreplay hemits
    rw [hreplay]
    cases (transcript true source).result <;> exact hemits.trans String.empty_append

/-! ## Every semantics -/

/-- Either every call of the transcript was made and the program ends as the recording does, or the
program ends with the fault of a call, at the place of that call. -/
theorem account_cases (m : Clocked σ α) (source : Source) (state : σ) :
    (∃ calls s,
      account m source state =
        ⟨(transcript m.calls source).result, (transcript m.calls source).cursor, s, calls⟩ ∧
      Grammar.program m (.start source state) =
        finished (transcript m.calls source).result (transcript m.calls source).cursor s ∧
      (∀ call ∈ calls, call.Succeeds) ∧
      List.Forall₂ (Call.Fills (made calls)) (transcript m.calls source).calls calls) ∨
    ∃ earlier place step fault s,
      account m source state =
        ⟨.error fault, place, s, earlier ++ [⟨place, step, .error fault⟩]⟩ ∧
      Grammar.program m (.start source state) = .error fault ⟨place, s⟩ ∧
      (∀ call ∈ earlier, call.Succeeds) ∧
      List.Forall₂ (Call.Fills (made earlier))
        ((transcript m.calls source).calls.take (earlier.length + 1))
        (earlier ++ [⟨place, step, .error fault⟩]) := by
  have hplain := Grammar.program_eq_replay m source state
  have hlogged := Grammar.program_eq_replay m.logged source ⟨state, .start source, []⟩
  -- the log that is kept beside the run says what was replayed
  have halike := replay_logged m (transcript m.calls source).calls [] state (.start source) []
  rw [show m.logged.calls = m.calls from rfl] at hlogged
  cases hreplay : m.replay (transcript m.calls source).calls [] state with
  | stuck => rw [hreplay] at hplain; exact hplain.elim
  | complete values s =>
    rw [hreplay] at hplain halike
    obtain ⟨calls, place, hends, rfl, hsucceed, hfills⟩ := halike
    rw [hends] at hlogged
    refine .inl ⟨calls, s, ?_, hplain, hsucceed, hfills⟩
    rw [account, show Grammar.program m.logged _ = _ from hlogged]
    cases (transcript m.calls source).result <;> rfl
  | failed place fault s =>
    rw [hreplay] at hplain halike
    obtain ⟨earlier, step, hends, hsucceed, hfills⟩ := halike
    rw [hends] at hlogged
    refine .inr ⟨earlier, place, step, fault, s, ?_, hplain, hsucceed, hfills⟩
    rw [account, show Grammar.program m.logged _ = _ from hlogged]
    rfl

/-- To keep an account is no matter to what a program does. -/
theorem program_eq_finished (m : Clocked σ α) (source : Source) (state : σ) :
    Grammar.program m (.start source state) =
      finished (account m source state).result (account m source state).cursor
        (account m source state).state := by
  rcases account_cases m source state with
    ⟨calls, s, haccount, hprogram, -⟩ | ⟨earlier, place, step, fault, s, haccount, hprogram, -⟩
  · rw [haccount, hprogram]
  · rw [haccount, hprogram]
    rfl

/-- A run that ends well has an account that does. -/
theorem account_result_of_ok {m : Clocked σ α} {source : Source} {state : σ} {q : Progress σ}
    (h : Grammar.program m (.start source state) = .ok () q) :
    (account m source state).result = .ok () := by
  rw [program_eq_finished] at h
  cases hresult : (account m source state).result with
  | ok _ => rfl
  | error fault =>
    rw [hresult] at h
    cases h

/-- What a text does to a semantics is written in its transcript, whose values are the numbers from
0. The calls are those of the transcript, at the same places, with each number replaced by the value
that was made in its turn, up to the first call that fails. If one does, its fault ends the program
where the cursor stands; else the program ends as the recording does. So a listing, also that of a
text which is no program, has the code of the calls, one after another. -/
theorem account_follows (m : Clocked σ α) (source : Source) (state : σ) :
    let T := transcript m.calls source
    let R := account m source state
    Grammar.program m (.start source state) = finished R.result R.cursor R.state ∧
      (∀ call ∈ T.calls, call.Succeeds) ∧
      made T.calls = List.range (made T.calls).length ∧
      List.Forall₂ (Call.Fills (made R.calls)) (T.calls.take R.calls.length) R.calls ∧
      ((∀ call ∈ R.calls, call.Succeeds) ∧ R.calls.length = T.calls.length ∧
          R.result = T.result ∧ R.cursor = T.cursor ∨
        ∃ earlier last fault, R.calls = earlier ++ [last] ∧ (∀ call ∈ earlier, call.Succeeds) ∧
          last.answer = .error fault ∧ R.result = .error fault ∧ R.cursor = last.place) ∧
      (compile source).sink.text =
        listing ((transcript true source).calls.flatMap fun call => Listing.code call.step) := by
  intro T R
  have hprogram : Grammar.program m (.start source state) = finished R.result R.cursor R.state :=
    program_eq_finished m source state
  obtain ⟨hsucceeds, hnumbers⟩ := transcript_numbered m.calls source
  rcases account_cases m source state with
    ⟨calls, s, haccount, -, hcalls, hfills⟩ |
    ⟨earlier, place, step, fault, s, haccount, -, hearlier, hfills⟩
  · have hlength : T.calls.length = calls.length := hfills.length_eq
    rw [show R = _ from haccount] at hprogram ⊢
    refine ⟨hprogram, hsucceeds, hnumbers, ?_, .inl ⟨hcalls, hlength.symm, rfl, rfl⟩,
      text_compile source⟩
    show List.Forall₂ (Call.Fills (made calls)) (T.calls.take calls.length) calls
    rw [← hlength, List.take_length]
    exact hfills
  · -- a call that fails makes no value
    have hmade : made (earlier ++ [⟨place, step, .error fault⟩]) = made earlier := by
      rw [made_append, made_error, List.append_nil]
    have hlength : (earlier ++ [⟨place, step, .error fault⟩] : List (Call α)).length =
        earlier.length + 1 := List.length_append
    rw [show R = _ from haccount] at hprogram ⊢
    refine ⟨hprogram, hsucceeds, hnumbers, ?_,
      .inr ⟨earlier, _, fault, rfl, hearlier, rfl, rfl, rfl⟩, text_compile source⟩
    show List.Forall₂ (Call.Fills (made (earlier ++ [⟨place, step, .error fault⟩]))) (T.calls.take
      (earlier ++ [⟨place, step, .error fault⟩] : List (Call α)).length) _
    rw [hmade, hlength]
    exact hfills

end OnePass
