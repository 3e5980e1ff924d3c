import OnePass.Proofs.Decompilation
import OnePass.Proofs.FirstCall
import OnePass.Proofs.Operands

/-!
# Running and compiling agree

A program is run by a grammar without calls and compiled by one with them. What either does is
written in a transcript, so a report follows its transcript (`Report.Follows`) unless a step fails:
no step of a compilation does, and a step of a run fails by overflow or a division by zero only. The
two transcripts are the same, or the one without calls ends at the first call
(`transcripts_same_or_stop`). So the two front ends agree on every text, up to the faults of
arithmetic and the first call (`run_follows_compile`).
-/

namespace OnePass

variable {σ α μ : Type}

/-! ## Calls in a transcript -/

/-- Only where there are calls, a call is noted. -/
theorem transcript_isCall (calls : Bool) (source : Source) :
    ∀ call ∈ (transcript calls source).calls, call.step.isCall = true → calls = true := by
  have hmakes : (Trace.semantics (.ofBool calls)).timeless.Makes fun call =>
      call.step.isCall = true → calls = true := by
    intro step c s _ hcall hisCall
    rw [← Trace.calls_ofBool calls]
    exact hcall hisCall
  exact hmakes.of_mem_account source {}

/-- To fill in values does not change what kind of step it is. -/
theorem Step.isCall_fill {values : List α} {step : Step Nat} {step' : Step α}
    (h : step.fill values = some step') : step'.isCall = step.isCall := by
  cases step with
  | zero => cases h; rfl
  | number digits => cases h; rfl
  | load name => cases h; rfl
  | call name => cases h; rfl
  | print name => cases h; rfl
  | hold lhs =>
    obtain ⟨a, -, rfl⟩ := Option.map_eq_some_iff.1 h
    rfl
  | assign name value =>
    obtain ⟨a, -, rfl⟩ := Option.map_eq_some_iff.1 h
    rfl
  | combine op lhs rhs =>
    obtain ⟨l, -, h⟩ := Option.bind_eq_some_iff.1 h
    obtain ⟨r, -, h⟩ := Option.bind_eq_some_iff.1 h
    cases h
    rfl

/-! ## Faults of replays -/

/-- What comes of an action: it leaves room for everything, or its fault is of the kind. -/
def LeavesRoom {β : Type} (kind : Fault → Prop) : EStateM.Result Fault (Writing μ) β → Prop
  | .ok _ s => s.sink.Unlimited
  | .error fault _ => kind fault

theorem LeavesRoom.map {β γ : Type} {kind : Fault → Prop} {y : Action (Writing μ) β}
    {s : Writing μ} (h : LeavesRoom kind (y s)) (f : β → γ) : LeavesRoom kind ((f <$> y) s) := by
  rw [Action.map_apply]
  cases hy : y s with
  | ok b s' => rw [hy] at h; exact h
  | error fault s' => rw [hy] at h; exact h

/-- With room for everything the steps of a semantics leave it, or their faults are of the kind. -/
def Semantics.FailsOnly (m : Semantics (Writing μ) α) (kind : Fault → Prop) : Prop :=
  ∀ (step : Step α) (s : Writing μ), (step.isCall = true → m.calls = true) → s.sink.Unlimited →
    LeavesRoom kind (m.perform step s)

/-- A replay of such steps leaves room, or ends with a fault of the kind. Induction on the
replay. -/
theorem Semantics.FailsOnly.replay {m : Semantics (Writing μ) α} {kind : Fault → Prop}
    (hm : m.FailsOnly kind) {calls : List (Call Nat)}
    (hcalls : ∀ call ∈ calls, call.step.isCall = true → m.calls = true) (values : List α)
    (s : Writing μ) (hs : s.sink.Unlimited) :
    match m.timeless.replay calls values s with
    | .complete _ s' => s'.sink.Unlimited
    | .failed _ fault _ => kind fault
    | .stuck => True := by
  fun_induction m.timeless.replay calls values s with
  | case1 => exact hs
  | case2 => trivial
  | case3 call calls values s step hfill answer s' hstep ih =>
    obtain ⟨hcall, hcalls⟩ := List.forall_mem_cons.1 hcalls
    have hroom := hm step s (fun h => hcall (Step.isCall_fill hfill ▸ h)) hs
    rw [show m.perform step s = _ from hstep] at hroom
    exact ih hcalls hroom
  -- the step that failed is of the kind
  | case4 call calls values s step hfill fault s' hstep =>
    obtain ⟨hcall, -⟩ := List.forall_mem_cons.1 hcalls
    have hkind := hm step s (fun h => hcall (Step.isCall_fill hfill ▸ h)) hs
    rw [show m.perform step s = _ from hstep] at hkind
    exact hkind

theorem Word.isArithmetic_of_ofInt {n : Int} {fault : Fault} (h : ofInt n = .error fault) :
    fault.IsArithmetic := by
  unfold ofInt at h
  split at h
  · cases h
  · cases h
    exact .inl rfl

theorem Word.isArithmetic_of_ofText {text : String} {fault : Fault}
    (h : ofText text = .error fault) : fault.IsArithmetic := by
  unfold ofText at h
  split at h
  · exact isArithmetic_of_ofInt h
  · cases h
    exact .inl rfl

/-- An operation fails by overflow or by a division by zero. -/
theorem Operator.isArithmetic_of_apply {op : Operator} {a b : Word} {fault : Fault}
    (h : op.apply a b = .error fault) : fault.IsArithmetic := by
  cases op with
  | add => exact Word.isArithmetic_of_ofInt h
  | sub => exact Word.isArithmetic_of_ofInt h
  | mul => exact Word.isArithmetic_of_ofInt h
  | div =>
    by_cases hb : b = 0
    · rw [apply, if_pos hb] at h
      cases h
      exact .inr rfl
    · rw [apply, if_neg hb] at h
      exact Word.isArithmetic_of_ofInt h

/-- A result that does not depend on the state leaves the sink as it is. -/
theorem leavesRoom_ofExcept {β : Type} {kind : Fault → Prop} {r : Except Fault β}
    (h : ∀ fault, r = .error fault → kind fault) {s : Writing μ} (hs : s.sink.Unlimited) :
    LeavesRoom kind ((Action.ofExcept r : Action (Writing μ) β) s) := by
  cases r with
  | ok b => exact hs
  | error fault => exact h fault rfl

/-- In an unlimited sink there is room after each piece. -/
theorem leavesRoom_write {kind : Fault → Prop} {s : Writing μ} (hs : s.sink.Unlimited)
    (piece : String) : LeavesRoom kind (Writing.write piece s) := by
  rw [Writing.write_eq_ok hs]
  exact hs.append piece

/-- With room for the output only arithmetic can fail. -/
theorem Evaluation.failsOnly : semantics.FailsOnly Fault.IsArithmetic := by
  intro step s hcall hs
  cases step with
  | zero => exact hs
  | load name => exact hs
  | hold lhs => exact hs
  | assign name value => exact hs
  | call name => cases hcall rfl
  | number digits => exact (leavesRoom_ofExcept (fun _ => Word.isArithmetic_of_ofText) hs).map some
  | combine op lhs rhs =>
    exact (leavesRoom_ofExcept (fun _ => Operator.isArithmetic_of_apply) hs).map some
  | print name =>
    have hwrite : LeavesRoom Fault.IsArithmetic (semantics.print name s) := leavesRoom_write hs _
    exact hwrite.map _

/-- With room for everything a step never fails, and writes its code. -/
theorem Listing.perform_eq_ok (step : Step Unit) :
    ∃ answer, ∀ s : Writing Nat, s.sink.Unlimited → ∃ s', semantics.perform step s = .ok answer s' ∧
      s'.memory = s.memory + (code step).length ∧ s'.sink.Unlimited ∧
      s'.sink.text = s.sink.text ++ listing (code step) := by
  obtain ⟨f, hf⟩ := perform_eq step
  refine ⟨f (), fun s hs => ?_⟩
  obtain ⟨s', hok, hmemory, hsink, htext⟩ := emits_compile step s hs
  refine ⟨s', ?_, hmemory, hsink, htext⟩
  rw [hf, Action.map_apply, hok]

theorem Listing.failsOnly : semantics.FailsOnly fun _ => False := by
  intro step s _ hs
  obtain ⟨answer, hstep⟩ := perform_eq_ok step
  obtain ⟨s', hok, -, hs', -⟩ := hstep s hs
  rw [hok]
  exact hs'

/-! ## Reports and transcripts -/

/-- A report of work that went on to the end of a transcript. -/
structure Report.Follows (report : Report μ) (transcript : Account Trace Nat) : Prop where
  source : report.source = transcript.cursor.source
  ok : transcript.result = .ok () → ∃ memory, report.result = .ok memory
  error : ∀ fault, transcript.result = .error fault → report.result = .error fault

/-- A report of success has a transcript that ends well. -/
theorem Report.Follows.result_ok {report : Report μ} {transcript : Account Trace Nat} {memory : μ}
    (h : report.Follows transcript) (hok : report.result = .ok memory) :
    transcript.result = .ok () := by
  cases hresult : transcript.result with
  | ok u => rfl
  | error fault =>
    rw [h.error fault hresult] at hok
    cases hok

/-- A report of a fault has it in its transcript. -/
theorem Report.Follows.result_error {report : Report μ} {transcript : Account Trace Nat}
    {fault : Fault} (h : report.Follows transcript) (herror : report.result = .error fault) :
    transcript.result = .error fault := by
  cases hresult : transcript.result with
  | ok u =>
    obtain ⟨memory, hok⟩ := h.ok hresult
    rw [hok] at herror
    cases herror
  | error fault' =>
    rw [h.error fault' hresult] at herror
    rw [Except.error.inj herror]

/-- Work follows the transcript of the text, or a step fails by a fault of the kind. -/
theorem Semantics.FailsOnly.follows {m : Semantics (Writing μ) α} {kind : Fault → Prop}
    (hm : m.FailsOnly kind) (memory : μ) (source : Source) :
    (execute m.timeless memory source {}).Follows (transcript m.calls source) ∨
      ∃ fault, kind fault ∧ (execute m.timeless memory source {}).result = .error fault := by
  have hprogram := Grammar.program_eq_replay m.timeless source ⟨memory, {}⟩
  rw [show m.timeless.calls = m.calls from rfl] at hprogram
  -- the calls of the transcript are replayed on the semantics itself
  have hroom := hm.replay (transcript_isCall m.calls source) [] ⟨memory, {}⟩ Sink.unlimited_empty
  cases hreplay : m.timeless.replay (transcript m.calls source).calls [] ⟨memory, {}⟩ with
  | stuck => rw [hreplay] at hprogram; exact hprogram.elim
  | failed place fault s =>
    rw [hreplay] at hprogram hroom
    refine .inr ⟨fault, hroom, ?_⟩
    rw [execute_eq_error hprogram]
  | complete values s =>
    rw [hreplay] at hprogram hroom
    obtain ⟨hresult, -, hsource⟩ := execute_of_finished hprogram hroom
    refine .inl ⟨hsource, fun hok => ⟨s.memory, ?_⟩, fun fault herror => ?_⟩
    · rw [hresult, hok]
      rfl
    · rw [hresult, herror]
      rfl

/-- A compilation follows its transcript, for none of its steps fails. -/
theorem compile_follows (source : Source) : (compile source).Follows (transcript true source) := by
  rcases Listing.failsOnly.follows 0 source with hfollows | ⟨_, hkind, -⟩
  · exact hfollows
  · exact hkind.elim

/-- A run follows its transcript, or a step failed by arithmetic. -/
theorem run_follows (source : Source) :
    (run source).Follows (transcript false source) ∨ FailsArithmetically (run source).result :=
  Evaluation.failsOnly.follows {} source

/-- The transcripts with and without calls are the same; or the one without calls ends at the first
call of the text, and the other one goes on from there. -/
theorem transcripts_same_or_stop (src : String) :
    (transcript true (.ofText src)).result = (transcript false (.ofText src)).result ∧
      (transcript true (.ofText src)).cursor = (transcript false (.ofText src)).cursor ∨
    ∃ k what, IsLeast { k | OpensCall src.toList k } k ∧
      (transcript false (.ofText src)).result = .error ⟨.expected what, ⟨k, k + 1⟩⟩ ∧
      k < (transcript true (.ofText src)).cursor.offset := by
  -- a recording that was told of no calls refuses nothing
  have hnever : (Trace.semantics .noted).withoutCalls.NeverFails :=
    Trace.neverFails (by decide : Trace.Calls.absent ≠ .refused)
  have hwith : Grammar.program (Trace.semantics .noted).timeless (.start (.ofText src) {}) = _ :=
    program_eq_finished (Trace.semantics (.ofBool true)).timeless (.ofText src) {}
  have hwithout : Grammar.program (Trace.semantics .noted).withoutCalls.timeless
      (.start (.ofText src) {}) = _ :=
    program_eq_finished (Trace.semantics (.ofBool false)).timeless (.ofText src) {}
  rcases Grammar.same_or_stops (m := Trace.semantics .noted) rfl hnever {} src with
    hsame | ⟨k, what, q, hleast, hstops, hgoes⟩
  · rw [hwith, hwithout] at hsame
    exact .inl (finished_inj hsame)
  · rw [hwithout] at hstops
    rw [hwith, ended_finished] at hgoes
    exact .inr ⟨k, what, hleast, eq_error_of_finished hstops, hgoes⟩

theorem Cursor.first_column (c : Cursor) : c.column.first = c.offset := by
  unfold column
  cases c.look <;> rfl

/-- A transcript that fails blames the character it has come to. -/
theorem transcript_column {calls : Bool} {source : Source} {fault : Fault}
    (h : (transcript calls source).result = .error fault) :
    fault.column.first = (transcript calls source).cursor.offset := by
  have hnever : (Trace.semantics (.ofBool calls)).NeverFails :=
    Trace.neverFails (by cases calls <;> decide)
  have hprogram := program_eq_finished (Trace.semantics (.ofBool calls)).timeless source {}
  rw [show (account _ _ _).result = _ from h] at hprogram
  obtain ⟨what, rfl⟩ := Grammar.blames_program hnever _ _ _ hprogram
  exact Cursor.first_column _

/-- A text that is a program without calls has no other branches in its listing than to `WRITE`. -/
theorem not_branchesElsewhere_of_transcript {src : String}
    (h : (transcript false (.ofText src)).result = .ok ()) :
    ¬ BranchesElsewhere (compile (.ofText src)).sink.text := by
  have hprogram := program_eq_finished (Trace.semantics (.ofBool false)).timeless (.ofText src) {}
  rw [show (account _ _ _).result = _ from h] at hprogram
  obtain ⟨program, p, rest, hp, hsrc, -⟩ := Grammar.spelled_of_program hprogram
  exact (not_branchesElsewhere_iff (hp.of_false true) hsrc).2 hp

/-- What runs well is compiled, and as much of the text is requested. -/
theorem compile_ok_of_run {src : String} {store : Store}
    (h : (run (.ofText src)).result = .ok store) :
    (∃ n, (compile (.ofText src)).result = .ok n) ∧
      (run (.ofText src)).source = (compile (.ofText src)).source := by
  have hcompiled := compile_follows (.ofText src)
  rcases run_follows (.ofText src) with hran | ⟨fault, -, hfails⟩
  · have hresult := hran.result_ok h
    rcases transcripts_same_or_stop src with ⟨hsame, hcursor⟩ | ⟨k, what, -, hstops, -⟩
    · refine ⟨hcompiled.ok (hsame.trans hresult), ?_⟩
      rw [hran.source, hcompiled.source, hcursor]
    · rw [hresult] at hstops
      cases hstops
  · rw [h] at hfails
    cases hfails

/-- The text is run up to its first call, which is at offset `k`, and no further. -/
def StopsAtCall (src : String) (k : Nat) : Prop :=
  IsLeast { k | OpensCall src.toList k } k ∧
    ∃ what, (run (.ofText src)).result = .error ⟨.expected what, ⟨k, k + 1⟩⟩

/-- The two front ends on one text, with room for all output. What runs is compiled, and no more of
the text is requested for the one than for the other. What is compiled runs up to a fault of
arithmetic if its listing branches to no subroutine but `WRITE`, and else it stops at the first call
at the latest. What is not compiled does not run either: it has the same fault, or one of
arithmetic, or stops at the first call, which is further in front. -/
theorem run_follows_compile (src : String) :
    (∀ store, (run (.ofText src)).result = .ok store →
      (∃ n, (compile (.ofText src)).result = .ok n) ∧
        (run (.ofText src)).source.requests = (compile (.ofText src)).source.requests) ∧
    (∀ n, (compile (.ofText src)).result = .ok n →
      ¬ BranchesElsewhere (compile (.ofText src)).sink.text →
        (∃ store, (run (.ofText src)).result = .ok store) ∨
          FailsArithmetically (run (.ofText src)).result) ∧
    (∀ n, (compile (.ofText src)).result = .ok n →
      BranchesElsewhere (compile (.ofText src)).sink.text →
        FailsArithmetically (run (.ofText src)).result ∨ ∃ k, StopsAtCall src k) ∧
    (∀ fault, (compile (.ofText src)).result = .error fault →
      (run (.ofText src)).result = .error fault ∨
        FailsArithmetically (run (.ofText src)).result ∨
          ∃ k, StopsAtCall src k ∧ k < fault.column.first) := by
  have hcompiled : (compile (.ofText src)).Follows _ := compile_follows (.ofText src)
  refine ⟨fun store hok => ?_, fun n hok hbranches => ?_, fun n hok hbranches => ?_,
    fun fault herror => ?_⟩
  · -- a run that ends well is compiled
    obtain ⟨hcompiles, hsource⟩ := compile_ok_of_run hok
    exact ⟨hcompiles, congrArg Source.requests hsource⟩
  · -- no branches elsewhere, so the program has no calls and runs like its tree
    obtain ⟨program, p, rest, hp, hsrc⟩ := spelled_of_compile hok
    exact (run_shown ((not_branchesElsewhere_iff hp hsrc).1 hbranches) hsrc).2
  · -- with a call the transcripts differ, so the run stops at the first one
    rcases run_follows (.ofText src) with hran | hfails
    · rcases transcripts_same_or_stop src with ⟨hsame, -⟩ | ⟨k, what, hleast, hstops, -⟩
      · have hresult := hsame.symm.trans (hcompiled.result_ok hok)
        exact absurd hbranches (not_branchesElsewhere_of_transcript hresult)
      · exact .inr ⟨k, hleast, what, hran.error _ hstops⟩
    · exact .inl hfails
  · -- if the transcripts differ, the one with calls has gone further
    have hresult := hcompiled.result_error herror
    rcases run_follows (.ofText src) with hran | hfails
    · rcases transcripts_same_or_stop src with ⟨hsame, -⟩ | ⟨k, what, hleast, hstops, hgoes⟩
      · exact .inl (hran.error _ (hsame.symm.trans hresult))
      · refine .inr (.inr ⟨k, ⟨hleast, what, hran.error _ hstops⟩, ?_⟩)
        rwa [transcript_column hresult]
    · exact .inr (.inl hfails)

example : (run (.ofText "a=1+f();")).result = .error ⟨.expected "Name", ⟨5, 6⟩⟩ := by cbv

end OnePass
