import OnePass.Proofs.Independence

/-!
# The discipline of values

A semantics may keep the value of an expression in one register and the operands that wait for
others on one stack, as the compiler does, which has no values at all. For whatever the text is and
whichever call fails, the values handed over come from these two places and no other
(`calls_disciplined`).

What is live is a current value and the held ones (`Live`). A factor, a term and an expression start
without a current value and make one, above whatever is held at the time; so their operators find
what they put aside on top again. This is shown production by production (`Leads`), for all calls
that a production makes and not only for those of a run that ends well.
-/

namespace OnePass

variable {σ α β γ : Type}

/-- The values that have been made and not used yet. -/
structure Live (α : Type) where
  current : Option α := none
  /-- The values put aside, the latest first. -/
  held : List α := []

namespace Live

/-- When a step may be taken: it uses the current value and the latest held one, or it starts where
no value is current. -/
def Admits (live : Live α) : Step α → Prop
  | .zero | .number _ | .load _ | .call _ => live.current = none
  | .hold lhs => live.current = some lhs
  | .combine _ lhs rhs => live.held.head? = some lhs ∧ live.current = some rhs
  | .assign _ value => live.current = some value ∧ live.held = []
  | .print _ => live.current = none ∧ live.held = []

/-- What is live when a step has been answered. -/
def answered (live : Live α) (answer : Option α) : Step α → Live α
  | .zero | .number _ | .load _ | .call _ => { live with current := answer }
  | .hold _ => ⟨none, answer.toList ++ live.held⟩
  | .combine _ _ _ => ⟨answer, live.held.tail⟩
  | .assign _ _ => { live with current := none }
  | .print _ => live

/-- What is live after a call. A call that failed made nothing. -/
def after (live : Live α) (call : Call α) : Live α :=
  match call.answer with
  | .ok answer => live.answered answer call.step
  | .error _ => live

def afterAll (live : Live α) (calls : List (Call α)) : Live α := calls.foldl after live

def values (live : Live α) : List α := live.current.toList ++ live.held

/-- Every call is admitted when it is made, and answered by a value if its step has one. -/
def AdmitsAll (live : Live α) : List (Call α) → Prop
  | [] => True
  | call :: calls =>
    live.Admits call.step ∧
      (∀ answer, call.answer = .ok answer → answer.isSome = call.step.hasValue) ∧
      (live.after call).AdmitsAll calls

/-- What is live behind two lists of calls, one after the other. -/
theorem afterAll_append (live : Live α) (xs ys : List (Call α)) :
    live.afterAll (xs ++ ys) = (live.afterAll xs).afterAll ys :=
  List.foldl_append

/-- Calls may come one list behind the other if the second may come behind the first. -/
theorem admitsAll_append {live : Live α} {xs ys : List (Call α)} :
    live.AdmitsAll (xs ++ ys) ↔ live.AdmitsAll xs ∧ (live.afterAll xs).AdmitsAll ys := by
  induction xs generalizing live with
  | nil => exact (and_iff_right trivial).symm
  | cons call calls ih =>
    simp only [List.cons_append, AdmitsAll, ih, and_assoc]
    rfl

end Live

/-! ## What is used -/

/-- The values that a call used. One that failed used none. -/
def Call.used (call : Call α) : List α :=
  match call.answer, call.step with
  | .ok _, .hold lhs => [lhs]
  | .ok _, .combine _ lhs rhs => [lhs, rhs]
  | .ok _, .assign _ value => [value]
  | _, _ => []

/-- The values that calls used, in order. -/
def used (calls : List (Call α)) : List α := calls.flatMap Call.used

/-- A call uses live values, each once, and what it makes is live. -/
theorem Live.values_after {live : Live α} {call : Call α} (h : live.Admits call.step)
    (hanswer : ∀ answer, call.answer = .ok answer → answer.isSome = call.step.hasValue) :
    (live.values ++ call.value.toList).Perm (call.used ++ (live.after call).values) := by
  obtain ⟨place, step, answer⟩ := call
  obtain ⟨current, held⟩ := live
  cases answer with
  | error fault =>
    show (Live.values ⟨current, held⟩ ++ []).Perm (Live.values ⟨current, held⟩)
    rw [List.append_nil]
  | ok answer =>
    have hanswer : answer.isSome = step.hasValue := hanswer answer rfl
    -- a step that makes a value from nothing adds it to the ones that are held
    have hmade {live : Live α} (hnone : live.current = none) :
        (live.values ++ answer.toList).Perm (answer.toList ++ live.held) := by
      rw [Live.values, hnone]
      exact List.perm_append_comm
    cases step with
    | zero => exact hmade h
    | number digits => exact hmade h
    | load name => exact hmade h
    | call name => exact hmade h
    | hold lhs =>
      obtain rfl : current = some lhs := h
      exact List.perm_append_comm.cons lhs
    | combine op lhs rhs =>
      -- both operands are used up, and one value takes their place
      obtain ⟨hheld, rfl : current = some rhs⟩ := h
      obtain ⟨rest, rfl⟩ := List.head?_eq_some_iff.1 hheld
      show (rhs :: lhs :: (rest ++ answer.toList)).Perm (lhs :: rhs :: (answer.toList ++ rest))
      exact (List.Perm.swap _ _ _).trans ((List.perm_append_comm.cons rhs).cons lhs)
    | assign name value =>
      obtain ⟨rfl : current = some value, rfl : held = []⟩ := h
      cases answer with
      | none => exact List.Perm.refl _
      | some a => cases hanswer
    | print name =>
      cases answer with
      | none => exact (List.append_nil _).symm ▸ List.Perm.refl _
      | some a => cases hanswer

/-- What was made was used once or is still live. -/
theorem Live.values_afterAll {live : Live α} {calls : List (Call α)} (h : live.AdmitsAll calls) :
    (live.values ++ made calls).Perm (used calls ++ (live.afterAll calls).values) := by
  induction calls generalizing live with
  | nil => exact (List.append_nil _).symm ▸ List.Perm.refl _
  | cons call calls ih =>
    obtain ⟨hadmits, hanswer, hcalls⟩ := h
    -- the value of the first call is made first
    have hmade : made (call :: calls) = call.value.toList ++ made calls := by
      rw [made, List.filterMap_cons]
      cases call.value <;> rfl
    calc live.values ++ made (call :: calls)
      _ = live.values ++ call.value.toList ++ made calls := by rw [hmade, List.append_assoc]
      List.Perm _ (call.used ++ (live.after call).values ++ made calls) :=
        (Live.values_after hadmits hanswer).append_right _
      _ = call.used ++ ((live.after call).values ++ made calls) := List.append_assoc _ _ _
      List.Perm _ (call.used ++ (used calls ++ ((live.after call).afterAll calls).values)) :=
        (ih hcalls).append_left _
      _ = used (call :: calls) ++ (live.afterAll (call :: calls)).values :=
        (List.append_assoc _ _ _).symm

/-! ## Productions -/

namespace Grammar

/-- The calls that a parser makes from `live` are all admitted, also if it fails; if it succeeds
with `b`, what is live is `after b`. -/
def Leads (live : Live α) (x : Parser (Logged σ α) β) (after : β → Live α) : Prop :=
  ∀ p, ∃ calls, (Action.ended (x p)).state.calls = p.state.calls ++ calls ∧ live.AdmitsAll calls ∧
    ∀ b q, x p = .ok b q → live.afterAll calls = after b

variable {m : Clocked σ α} {live : Live α} {after : β → Live α}

/-- A parser that does nothing leads from a state to the same. -/
theorem leads_pure {b : β} (h : live = after b) :
    Leads live (pure b : Parser (Logged σ α) β) after := by
  refine fun p => ⟨[], (List.append_nil _).symm, trivial, ?_⟩
  rintro _ _ ⟨rfl, rfl⟩
  exact h

theorem leads_missing (what : String) :
    Leads live (missing what : Parser (Logged σ α) β) after :=
  fun _ => ⟨[], (List.append_nil _).symm, trivial, fun _ _ h => by cases h⟩

theorem Leads.cursor_bind {f : Cursor → Parser (Logged σ α) β} (h : ∀ c, Leads live (f c) after) :
    Leads live (cursor >>= f) after := fun p => h p.cursor p

theorem Leads.scan_bind {lexeme : Scan γ} {f : γ → Parser (Logged σ α) β}
    (h : ∀ c, Leads live (f c) after) : Leads live (scan lexeme >>= f) after := by
  intro p
  rw [bind_apply, scan]
  cases lexeme p.cursor with
  | ok c cursor => exact h c { p with cursor }
  | error fault cursor =>
    exact ⟨[], (List.append_nil _).symm, trivial, fun _ _ h => by cases h⟩

/-- One production behind another. The calls of a production that fails in its second part are those
of both. -/
theorem Leads.bind {between : γ → Live α} {x : Parser (Logged σ α) γ}
    {f : γ → Parser (Logged σ α) β} (hx : Leads live x between)
    (hf : ∀ c, Leads (between c) (f c) after) : Leads live (x >>= f) after := by
  intro p
  obtain ⟨calls, hcalls, hadmits, hend⟩ := hx p
  rw [bind_apply]
  cases hxp : x p with
  -- a fault of the first part ends the calls
  | error fault q =>
    rw [hxp] at hcalls
    exact ⟨calls, hcalls, hadmits, fun _ _ h => by cases h⟩
  | ok c q =>
    rw [hxp] at hcalls
    have hcalls : q.state.calls = p.state.calls ++ calls := hcalls
    have hbetween := hend c q hxp
    obtain ⟨calls', hcalls', hadmits', hend'⟩ := hf c q
    refine ⟨calls ++ calls', ?_, ?_, fun b r h => ?_⟩
    · rw [← List.append_assoc, ← hcalls]
      exact hcalls'
    · exact Live.admitsAll_append.2 ⟨hadmits, hbetween ▸ hadmits'⟩
    · rw [Live.afterAll_append, hbetween]
      exact hend' b r h

/-- A step that is admitted, and the value that it is logged with. -/
theorem leads_act (step : Step α) {f : β → Option α} {action : Action σ β}
    {x : Action (Logged σ α) β} (hx : x = Logged.note step f action) (hadmits : live.Admits step)
    (hvalue : ∀ b, (f b).isSome = step.hasValue)
    (hafter : ∀ b, live.answered (f b) step = after b) :
    Leads live (act m.logged x) after := by
  intro p
  rw [act, hx, Logged.note]
  have htick : m.logged.tick p.cursor p.state =
      ⟨m.tick p.cursor p.state.state, p.cursor, p.state.calls⟩ := rfl
  rw [htick]
  simp only
  cases action (m.tick p.cursor p.state.state) with
  | ok b s =>
    refine ⟨[⟨p.cursor, step, .ok (f b)⟩], rfl, ⟨hadmits, ?_, trivial⟩, ?_⟩
    · rintro _ ⟨rfl⟩
      exact hvalue b
    · rintro _ _ ⟨rfl, rfl⟩
      exact hafter b
  | error fault s =>
    -- the step that fails was admitted as well
    refine ⟨[⟨p.cursor, step, .error fault⟩], rfl, ⟨hadmits, ?_, trivial⟩, ?_⟩
    · intro _ h
      cases h
    · intro _ _ h
      cases h

/-- Above whatever is held, the parser makes a value. -/
def Makes (x : Parser (Logged σ α) α) : Prop :=
  ∀ held, Leads ⟨none, held⟩ x fun value => ⟨some value, held⟩

theorem leads_hold (lhs : α) (held : List α) :
    Leads ⟨some lhs, held⟩ (act m.logged (m.logged.hold lhs)) fun put => ⟨none, put :: held⟩ :=
  leads_act (.hold lhs) rfl rfl (fun _ => rfl) fun _ => rfl

/-- An operator takes the value on top and the current one, and makes a new one. -/
theorem leads_combine (op : Operator) (put rhs : α) (held : List α) :
    Leads ⟨some rhs, put :: held⟩ (act m.logged (m.logged.combine op put rhs))
      fun value => ⟨some value, held⟩ :=
  leads_act (.combine op put rhs) rfl ⟨rfl, rfl⟩ (fun _ => rfl) fun _ => rfl

/-- What is held while an operand is read is on top again when it has been read. -/
theorem leads_chainWithin (level : Operator → Bool) {operand : Parser (Logged σ α) α}
    (h : Makes operand) (n : Nat) (lhs : α) (held : List α) :
    Leads ⟨some lhs, held⟩ (chainWithin m.logged level operand n lhs)
      fun value => ⟨some value, held⟩ := by
  induction n generalizing lhs with
  | zero => exact leads_pure rfl
  | succ n ih =>
    refine Leads.cursor_bind fun c => ?_
    cases c.operator?.filter level with
    | none => exact leads_pure rfl
    | some op =>
      refine (leads_hold lhs held).bind fun put => Leads.scan_bind fun _ => ?_
      -- while the right operand is worked out, the left one is held
      refine (h (put :: held)).bind fun rhs => ?_
      exact (leads_combine op put rhs held).bind ih

/-- A term is a factor and the operators behind it. -/
theorem makes_termWithin {factor : Parser (Logged σ α) α} (h : Makes factor) (n : Nat) :
    Makes (termWithin m.logged factor n) :=
  fun held => (h held).bind fun lhs => leads_chainWithin _ h n lhs held

/-- The zero in front of a sign is a value that is made. -/
theorem makes_zero : Makes (act m.logged m.logged.zero) :=
  fun _ => leads_act .zero rfl rfl (fun _ => rfl) fun _ => rfl

/-- An expression makes one value, with a sign in front or without. -/
theorem makes_expressionWithin {factor : Parser (Logged σ α) α} (h : Makes factor) (n : Nat) :
    Makes (expressionWithin m.logged factor n) := by
  intro held
  have hterm := makes_termWithin (m := m) h n
  have hchain (lhs : α) := leads_chainWithin (m := m) Operator.isAdditive hterm n lhs held
  refine Leads.cursor_bind fun c => ?_
  cases c.isAtAdditive with
  | true => exact (makes_zero held).bind hchain
  | false => exact (hterm held).bind hchain

/-- A variable and a call make one value each. -/
theorem makes_reference : Makes (reference m.logged) := by
  refine fun held => Leads.scan_bind fun name => Leads.cursor_bind fun c => ?_
  split
  · refine Leads.scan_bind fun _ => Leads.scan_bind fun _ => ?_
    exact leads_act (.call name) rfl rfl (fun _ => rfl) fun _ => rfl
  · exact leads_act (.load name) rfl rfl (fun _ => rfl) fun _ => rfl

theorem makes_number (digits : String) :
    Makes (act m.logged (m.logged.number digits)) :=
  fun _ => leads_act (.number digits) rfl rfl (fun _ => rfl) fun _ => rfl

/-- A factor makes one value. The induction is on the bound, for the expression in parentheses. -/
theorem makes_factorWithin (n : Nat) : Makes (factorWithin m.logged n) := by
  induction n with
  | zero => exact fun held => leads_missing _
  | succ n ih =>
    refine fun held => Leads.cursor_bind fun c => ?_
    split
    · refine Leads.scan_bind fun _ => (makes_expressionWithin ih n held).bind fun value => ?_
      exact Leads.scan_bind fun _ => leads_pure rfl
    · split
      · exact makes_reference held
      · exact Leads.scan_bind fun digits => makes_number digits held

/-- An assignment uses the only live value. -/
theorem leads_assign (name : String) (value : α) :
    Leads ⟨some value, []⟩ (act m.logged (m.logged.assign name value)) fun _ => {} :=
  leads_act (.assign name value) rfl ⟨rfl, rfl⟩ (fun _ => rfl) fun _ => rfl

/-- A statement starts and ends with nothing live. -/
theorem leads_statementWithin (n : Nat) :
    Leads {} (statementWithin m.logged n) fun _ => {} := by
  refine Leads.cursor_bind fun c => ?_
  split
  · refine Leads.scan_bind fun _ => Leads.scan_bind fun name => ?_
    exact leads_act (.print name) rfl ⟨rfl, rfl⟩ (fun _ => rfl) fun _ => rfl
  · split
    · refine Leads.scan_bind fun _ => Leads.scan_bind fun name => Leads.scan_bind fun digits => ?_
      exact (makes_number digits []).bind fun value => leads_assign name value
    · refine Leads.scan_bind fun name => Leads.scan_bind fun _ => ?_
      exact (makes_expressionWithin (makes_factorWithin n) n []).bind fun value =>
        leads_assign name value

/-- A program starts with nothing live, and after each statement nothing is live again. -/
theorem leads_programWithin (n : Nat) : Leads {} (programWithin m.logged n) fun _ => {} := by
  induction n with
  | zero => exact leads_missing _
  | succ n ih =>
    refine (leads_statementWithin _).bind fun _ => Leads.scan_bind fun _ => ?_
    refine Leads.cursor_bind fun c => ?_
    split
    · exact leads_pure rfl
    · exact ih

end Grammar

/-! ## Whole programs -/

/-- Whatever the text is and whichever call fails, the calls use a register and a stack: each finds
there what it uses, at most one value is current, those put aside are used the latest first, and
all that was made has been used once or is live. After a program that ends well nothing is live. -/
theorem calls_disciplined (m : Clocked σ α) (source : Source) (state : σ) :
    let calls := (account m source state).calls
    (∀ before call after, calls = before ++ call :: after →
      (Live.afterAll {} before).Admits call.step ∧
        ∀ answer, call.answer = .ok answer → answer.isSome = call.step.hasValue) ∧
      (∀ before after, calls = before ++ after →
        (made before).Perm (used before ++ (Live.afterAll {} before).values)) ∧
      ∀ q, Grammar.program m (.start source state) = .ok () q →
        Live.afterAll {} calls = {} ∧ (made calls).Perm (used calls) := by
  intro calls
  obtain ⟨log, hlog, hadmits, hend⟩ := Grammar.leads_programWithin (m := m)
    (Cursor.start source).unread.length (.start source ⟨state, .start source, []⟩)
  obtain rfl : calls = log := (account_calls m source state).trans hlog
  -- a list of calls may be cut anywhere
  have hadmitted (before after : List (Call α)) (h : calls = before ++ after) :
      Live.AdmitsAll {} before ∧ (Live.afterAll {} before).AdmitsAll after :=
    Live.admitsAll_append.1 (h ▸ hadmits)
  refine ⟨fun before call after h => ?_, fun before after h => ?_, fun q hq => ?_⟩
  · obtain ⟨hcall, hanswer, -⟩ := (hadmitted before (call :: after) h).2
    exact ⟨hcall, hanswer⟩
  · exact Live.values_afterAll (hadmitted before after h).1
  · -- the account is that of the run which ended well
    have hlive : Live.afterAll {} calls = {} := by
      have hresult := account_result_of_ok hq
      unfold account at hresult
      cases hlogged : Grammar.program m.logged (.start source ⟨state, .start source, []⟩) with
      | ok _ p => exact hend () p hlogged
      | error fault p =>
        rw [hlogged] at hresult
        cases hresult
    refine ⟨hlive, ?_⟩
    have hperm := Live.values_afterAll hadmits
    rw [hlive] at hperm
    exact (List.append_nil (used calls)) ▸ hperm

/-- The calls of a run are admitted from the start, and nothing is live when it ends well. -/
theorem account_admitted (m : Clocked σ α) (source : Source) (state : σ) :
    Live.AdmitsAll {} (account m source state).calls ∧
      ((account m source state).result = .ok () →
        Live.afterAll {} (account m source state).calls = {}) := by
  obtain ⟨calls, hcalls, hadmits, hend⟩ := Grammar.leads_programWithin (m := m)
    (Cursor.start source).unread.length (.start source ⟨state, .start source, []⟩)
  -- the log of the run is its account
  have hsame : (account m source state).calls = calls := (account_calls m source state).trans hcalls
  rw [hsame]
  refine ⟨hadmits, fun hok => ?_⟩
  unfold account at hok
  cases hlogged : Grammar.program m.logged (.start source ⟨state, .start source, []⟩) with
  | ok _ p => exact hend () p hlogged
  | error fault p =>
    rw [hlogged] at hok
    cases hok

end OnePass
