import OnePass.Proofs.Actions
import OnePass.Proofs.Truncation
import OnePass.Proofs.Vocabulary

/-!
# The count of instructions

Instructions are counted apart from the text that they are written to, and a construct may have two
of them, with a failure in between. Still the count is that of the lines in the sink: a line is
counted when all of it is there, and where there is no room for all of it, the sink is full from
then on. So there are two kinds of states: the sink has the code of all constructs so far
(`Listing.Complete`), or it is full with a beginning of this code and of the line behind that
(`Listing.Full`).

* **`counts_emit`** — what becomes of a line, and of the count with it.
* **`perform_of_full`** — once the sink is full every step fails, and changes neither.
* **`performAll_of_complete`** — from the steps, what a list of them leaves.
* **`count_never_drifts`** — the count against the line feeds, after any calls and any failures.
-/

namespace OnePass

variable {σ α β : Type}

/-! ## Steps on one line -/

/-- Neither a name nor a number in the step has a line feed in it. -/
def Step.OneLine : Step α → Prop
  | .number operand | .load operand | .call operand | .assign operand _ | .print operand =>
    '\n' ∉ operand.toList
  | .zero | .hold _ | .combine _ _ _ => True

/-- Operands without line feeds give instructions of one line each. -/
theorem Step.OneLine.not_mem_text {step : Step Unit} (h : step.OneLine) :
    ∀ i ∈ Listing.code step, '\n' ∉ i.text.toList := by
  unfold Step.OneLine at h
  cases step with
  | combine op lhs rhs => cases op <;> simp [Listing.code, Instruction.text]
  | _ => simp_all [Listing.code, Instruction.text, String.toList_append]

/-- Steps that the parser hands over have operands of letters or digits. -/
theorem Step.Written.oneLine {step : Step α} (h : step.Written) : step.OneLine := by
  cases step with
  | zero => trivial
  | hold lhs => trivial
  | combine op lhs rhs => trivial
  | number digits => exact fun hmem => absurd (h.2 _ hmem) (by decide)
  | load name => exact Instruction.not_mem_of_isWord (IsName.isWord h)
  | call name => exact Instruction.not_mem_of_isWord (IsName.isWord h)
  | assign name value => exact Instruction.not_mem_of_isWord (IsName.isWord h)
  | print name => exact Instruction.not_mem_of_isWord (IsName.isWord h)

/-- Performs steps one after another, and goes on when one fails. -/
def Semantics.performAll (m : Semantics σ α) (steps : List (Step α)) (s : σ) : σ :=
  steps.foldl (fun s step => Action.ended (m.perform step s)) s

/-- Steps are performed one list behind the other. -/
theorem performAll_append (m : Semantics σ α) (xs ys : List (Step α)) (s : σ) :
    m.performAll (xs ++ ys) s = m.performAll ys (m.performAll xs s) :=
  List.foldl_append

/-- A step fails when the steps before it have been performed. -/
def Semantics.HasFailed (m : Semantics σ α) (steps : List (Step α)) (s : σ) : Prop :=
  ∃ done step later fault s', steps = done ++ step :: later ∧
    m.perform step (m.performAll done s) = .error fault s'

/-- A failure among later steps is one among all of them. -/
theorem Semantics.HasFailed.cons {m : Semantics σ α} {steps : List (Step α)} {step : Step α} {s : σ}
    (h : m.HasFailed steps (Action.ended (m.perform step s))) : m.HasFailed (step :: steps) s := by
  obtain ⟨done, next, later, fault, s', rfl, hfails⟩ := h
  exact ⟨step :: done, next, later, fault, s', rfl, hfails⟩

/-! ## Sinks that are full -/

namespace Sink

theorem fitting_zero (cs : List Char) : fitting 0 cs = [] := by
  cases cs with
  | nil => rfl
  | cons c cs => exact if_neg (Nat.not_le_of_lt c.utf8Size_pos)

/-- A full sink takes nothing. -/
theorem write_of_full {piece : String} (hpiece : piece ≠ "") {sink : Sink}
    (h : sink.room = some 0) :
    ∃ sink', write piece sink = .error (.internal "sink full") sink' ∧ sink'.room = some 0 ∧
      sink'.text = sink.text := by
  have hsize : ¬ piece.utf8ByteSize ≤ 0 :=
    fun hle => hpiece (String.utf8ByteSize_eq_zero_iff.1 (Nat.le_zero.1 hle))
  rw [write, h]
  simp only [hsize, if_false, fitting_zero]
  exact ⟨_, rfl, rfl, (text_append sink _).trans String.append_empty⟩

theorem room_of_write_error {piece : String} {sink sink' : Sink} {fault : Fault}
    (h : write piece sink = .error fault sink') : sink'.room = some 0 := by
  unfold write at h
  split at h
  · cases h
  · split at h
    · cases h
    · cases h
      rfl

end Sink

namespace Listing

/-! ## What is written and counted -/

/-- The lines of the code have been written and counted. -/
structure Complete (code : List Instruction) (s : Writing Nat) : Prop where
  text : s.sink.text = listing code
  count : s.memory = code.length

/-- The sink is full, with the lines of a beginning of the code and not all of the line that comes
next. The complete lines have been counted. -/
structure Full (code : List Instruction) (s : Writing Nat) : Prop where
  room : s.sink.room = some 0
  lines : ∃ done next rest tail more, code = done ++ next :: rest ∧
    next.line.toList = tail ++ more ∧ more ≠ [] ∧
    s.sink.text = listing done ++ String.ofList tail ∧ s.memory = done.length

/-- What more there was to write makes no difference. -/
theorem Full.extend {code : List Instruction} {s s' : Writing Nat} (h : Full code s)
    (hroom : s'.sink.room = some 0) (hmemory : s'.memory = s.memory)
    (htext : s'.sink.text = s.sink.text) (more : List Instruction) : Full (code ++ more) s' := by
  obtain ⟨done, next, rest, tail, cut, rfl, hline, hcut, hlines, hcount⟩ := h.lines
  refine ⟨hroom, done, next, rest ++ more, tail, cut, ?_, hline, hcut, ?_, ?_⟩
  · rw [List.append_assoc, List.cons_append]
  · rw [htext, hlines]
  · rw [hmemory, hcount]

/-- What becomes of the code: it has been written, or the sink has no room for all of it. -/
def Counts (code : List Instruction) : EStateM.Result Fault (Writing Nat) β → Prop
  | .ok _ s => Complete code s
  | .error _ s => Full code s

/-- An instruction is written and counted, or its line is cut and it is not. -/
theorem counts_emit {code : List Instruction} {s : Writing Nat} (h : Complete code s)
    (instruction : Instruction) : Counts (code ++ [instruction]) (emit instruction s) := by
  have hlisting : listing (code ++ [instruction]) = s.sink.text ++ instruction.line := by
    rw [listing_append, h.text]
    simp [listing]
  -- the count goes up behind the write, so only if the write succeeds
  unfold emit
  rw [Action.bind_apply]
  unfold Writing.write
  rcases Sink.write_cases instruction.line s.sink with
    ⟨sink', hwrite, htext⟩ | ⟨sink', tail, more, hwrite, htext, hline, hmore⟩
  · rw [hwrite]
    refine ⟨htext.trans hlisting.symm, ?_⟩
    rw [List.length_append, ← h.count]
    rfl
  · -- the line is cut, and a cut line is not counted
    have hroom := Sink.room_of_write_error hwrite
    rw [hwrite]
    exact ⟨hroom, code, instruction, [], tail, more, rfl, hline, hmore, h.text ▸ htext, h.count⟩

/-- The same holds of instructions in a row. Induction on them, with the code before. -/
theorem counts_compile {code : List Instruction} {s : Writing Nat} (h : Complete code s)
    (instructions : List Instruction) :
    Counts (code ++ instructions) (instructions.forM emit s) := by
  induction instructions generalizing code s with
  | nil =>
    rw [List.append_nil]
    exact h
  | cons instruction rest ih =>
    have hfirst := counts_emit h instruction
    show Counts _ ((emit instruction >>= fun _ => rest.forM emit) s)
    rw [Action.bind_apply, List.append_cons]
    cases hemit : emit instruction s with
    | error fault s' =>
      rw [hemit] at hfirst
      exact hfirst.extend hfirst.room rfl rfl rest
    | ok _ s' =>
      rw [hemit] at hfirst
      exact ih hfirst

theorem counts_perform {code : List Instruction} {s : Writing Nat} (h : Complete code s)
    (step : Step Unit) : Counts (code ++ Listing.code step) (semantics.perform step s) := by
  have hcompile := counts_compile h (Listing.code step)
  obtain ⟨f, hf⟩ := perform_eq step
  rw [hf, Action.map_apply, compile]
  cases hforM : (Listing.code step).forM emit s <;> rw [hforM] at hcompile <;> exact hcompile

/-! ## Once the sink is full -/

theorem exists_code (step : Step Unit) : ∃ first rest, code step = first :: rest := by
  cases step with
  | combine op lhs rhs => cases op <;> exact ⟨_, _, rfl⟩
  | _ => exact ⟨_, _, rfl⟩

/-- A step on a full sink fails at its first line. -/
theorem perform_of_full {s : Writing Nat} (h : s.sink.room = some 0) (step : Step Unit) :
    ∃ s', semantics.perform step s = .error (.internal "sink full") s' ∧
      s'.sink.room = some 0 ∧ s'.memory = s.memory ∧ s'.sink.text = s.sink.text := by
  obtain ⟨first, rest, hcode⟩ := exists_code step
  have hline : first.line ≠ "" := by simp [Instruction.line]
  obtain ⟨sink', hwrite, hroom, htext⟩ := Sink.write_of_full hline h
  obtain ⟨f, hf⟩ := perform_eq step
  refine ⟨{ s with sink := sink' }, ?_, hroom, rfl, htext⟩
  have hfirst : emit first s = .error (.internal "sink full") { s with sink := sink' } := by
    rw [emit, Action.bind_apply, Writing.write, hwrite]
  have hcompile : compile step s = .error (.internal "sink full") { s with sink := sink' } := by
    rw [compile, hcode]
    show (emit first >>= fun _ => rest.forM emit) s = _
    rw [Action.bind_apply, hfirst]
  rw [hf, Action.map_apply, hcompile]

/-- Once the sink is full, no step changes the sink or the count. -/
theorem performAll_of_full {s : Writing Nat} (h : s.sink.room = some 0)
    (steps : List (Step Unit)) :
    (semantics.performAll steps s).sink.room = some 0 ∧
      (semantics.performAll steps s).memory = s.memory ∧
      (semantics.performAll steps s).sink.text = s.sink.text := by
  induction steps generalizing s with
  | nil => exact ⟨h, rfl, rfl⟩
  | cons step steps ih =>
    obtain ⟨s', hstep, hroom, hmemory, htext⟩ := perform_of_full h step
    have hrest := ih hroom
    rw [hmemory, htext] at hrest
    rw [Semantics.performAll, List.foldl_cons, hstep]
    exact hrest

/-- Steps that go on where all has been written so far: all that they mean is written, too, or one
of them fails, and the sink is full. -/
theorem performAll_of_complete {code : List Instruction} {s : Writing Nat} (h : Complete code s)
    (steps : List (Step Unit)) :
    Complete (code ++ steps.flatMap Listing.code) (semantics.performAll steps s) ∨
      Full (code ++ steps.flatMap Listing.code) (semantics.performAll steps s) ∧
        semantics.HasFailed steps s := by
  induction steps generalizing code s with
  | nil =>
    rw [List.flatMap_nil, List.append_nil]
    exact .inl h
  | cons step steps ih =>
    have hfirst := counts_perform h step
    rw [List.flatMap_cons, ← List.append_assoc, Semantics.performAll, List.foldl_cons]
    cases hstep : semantics.perform step s with
    | ok answer s' =>
      rw [hstep] at hfirst
      rcases ih hfirst with hcomplete | ⟨hfull, hfailed⟩
      · exact .inl hcomplete
      · refine .inr ⟨hfull, .cons ?_⟩
        rwa [hstep]
    | error fault s' =>
      -- the steps behind the one that fails add nothing
      rw [hstep] at hfirst
      obtain ⟨hroom, hmemory, htext⟩ := performAll_of_full hfirst.room steps
      exact .inr ⟨hfirst.extend hroom hmemory htext _, [], step, steps, fault, s', rfl, hstep⟩

/-- A step that fails leaves the sink full. -/
theorem room_of_failure {start s' : Writing Nat} (hstart : Complete [] start)
    {done : List (Step Unit)} {step : Step Unit} {fault : Fault}
    (h : semantics.perform step (semantics.performAll done start) = .error fault s') :
    s'.sink.room = some 0 := by
  -- the sink was full before the step, or it is the step that fills it
  rcases performAll_of_complete hstart done with hcomplete | ⟨hfull, -⟩
  · have hcounts := counts_perform hcomplete step
    rw [h] at hcounts
    exact hcounts.room
  · obtain ⟨s, hstep, hroom, -⟩ := perform_of_full hfull.room step
    rw [h] at hstep
    cases hstep
    exact hroom

/-! ## Line feeds -/

/-- A listing has as many line feeds as instructions. -/
theorem count_listing {code : List Instruction} (h : ∀ i ∈ code, '\n' ∉ i.text.toList) :
    (listing code).toList.count '\n' = code.length := by
  induction code with
  | nil => rfl
  | cons instruction code ih =>
    obtain ⟨hinstruction, hcode⟩ := List.forall_mem_cons.1 h
    have hline : ('\t' :: instruction.text.toList).count '\n' = 0 :=
      List.count_eq_zero.2 (by simp [hinstruction])
    rw [toList_listing_cons, List.count_append, List.count_cons_self, ih hcode, hline, Nat.zero_add,
      List.length_cons]

/-- The sink has the lines of so many instructions as are counted, in the order of the steps, and
perhaps a part of a line more, which is there only if a write has failed. -/
structure Tally (steps : List (Step Unit)) (start s : Writing Nat) : Prop where
  count : s.memory = s.sink.text.toList.count '\n'
  isEmpty : isEmpty s = true ↔ s.sink.text.toList.count '\n' = 0
  lines : ∃ code tail, code <+: steps.flatMap Listing.code ∧ code.length = s.memory ∧
    s.sink.text = listing code ++ String.ofList tail ∧ '\n' ∉ tail ∧
    (tail ≠ [] → semantics.HasFailed steps start ∧
      ∃ next, code ++ [next] <+: steps.flatMap Listing.code ∧ tail <+: next.line.toList)

/-- The count of complete lines, with a part of the next line behind them, is the count of line
feeds. -/
theorem Tally.of_lines {steps : List (Step Unit)} {start s : Writing Nat}
    (hsteps : ∀ step ∈ steps, step.OneLine) {code : List Instruction} {tail : List Char}
    (hcode : code <+: steps.flatMap Listing.code) (hcount : code.length = s.memory)
    (htext : s.sink.text = listing code ++ String.ofList tail) (hmem : '\n' ∉ tail)
    (htail : tail ≠ [] → semantics.HasFailed steps start ∧
      ∃ next, code ++ [next] <+: steps.flatMap Listing.code ∧ tail <+: next.line.toList) :
    Tally steps start s := by
  have hlines : ∀ i ∈ code, '\n' ∉ i.text.toList := by
    intro i hi
    obtain ⟨step, hstep, hi⟩ := List.mem_flatMap.1 (hcode.subset hi)
    exact (hsteps step hstep).not_mem_text i hi
  -- the part of a line behind them has no line feed
  have hfeeds : s.sink.text.toList.count '\n' = code.length := by
    rw [htext, String.toList_append, String.toList_ofList, List.count_append, count_listing hlines,
      List.count_eq_zero.2 hmem, Nat.add_zero]
  refine ⟨by rw [hfeeds, hcount], ?_, code, tail, hcode, hcount, htext, hmem, htail⟩
  rw [hfeeds, hcount, Listing.isEmpty, decide_eq_true_eq]

/-- Whatever steps are performed, the count is that of the line feeds. -/
theorem tally_performAll {start : Writing Nat} (hstart : Complete [] start)
    {steps : List (Step Unit)} (hsteps : ∀ step ∈ steps, step.OneLine) :
    Tally steps start (semantics.performAll steps start) := by
  rcases performAll_of_complete hstart steps with hcomplete | ⟨hfull, hfailed⟩
  · exact .of_lines hsteps List.prefix_rfl hcomplete.count.symm
      (hcomplete.text.trans (by rw [String.ofList_nil, String.append_empty]; rfl))
      List.not_mem_nil fun h => absurd rfl h
  · obtain ⟨done, next, rest, tail, more, hcode, hline, hmore, htext, hcount⟩ := hfull.lines
    rw [List.nil_append] at hcode
    -- the line that is cut belongs to a step, which has no line feed in its text
    have hnext : done ++ [next] <+: steps.flatMap Listing.code :=
      ⟨rest, by rw [hcode, List.append_assoc]; rfl⟩
    obtain ⟨step, hstep, hmem⟩ := List.mem_flatMap.1 (hnext.subset (List.mem_append_right done
      List.mem_cons_self))
    refine .of_lines hsteps ⟨next :: rest, hcode.symm⟩ hcount.symm htext ?_ fun _ => ?_
    · exact not_mem_of_line ((hsteps step hstep).not_mem_text next hmem) hline hmore
    · exact ⟨hfailed, next, hnext, more, hline.symm⟩

end Listing

/-! ## Whatever is asked of a parser -/

/-- The steps that a semantics is told of. -/
def toldSteps (m : Clocked σ α) (source : Source) (state : σ) (goals : List Grammar.Goal) :
    List (Step α) :=
  (callsOf m source state goals).map Call.step

/-- A parser leaves the state that comes of the steps it tells of. -/
theorem stand_eq_performAll (m : Semantics σ α) (source : Source) (state : σ)
    (goals : List Grammar.Goal) :
    (Grammar.stand m.timeless goals (.start source state)).state =
      m.performAll (toldSteps m.timeless source state goals) state := by
  -- while the calls are logged, the state is always that of the log
  have hkeeps : m.timeless.logged.Keeps fun l =>
      l.state = m.performAll (l.calls.map Call.step) state := by
    intro step c l _ _ hl
    rw [Clocked.ended_perform_logged, List.map_append, performAll_append, ← hl]
    rfl
  have hlogged := Grammar.stand_refines (refines_logged m.timeless) goals (Cursor.start source)
    ⟨state, .start source, []⟩
  rw [Progress.start, show state = Logged.state (α := α) ⟨state, .start source, []⟩ from rfl,
    hlogged]
  exact Grammar.keeps_stand hkeeps goals rfl

/-- What the parser tells a semantics fits on one line. -/
theorem oneLine_of_mem_toldSteps (m : Clocked σ α) (source : Source) (state : σ)
    (goals : List Grammar.Goal) : ∀ step ∈ toldSteps m source state goals, step.OneLine := by
  have hmakes : m.Makes fun call => call.step.OneLine := fun _ _ _ hwritten _ => hwritten.oneLine
  exact List.forall_mem_map.2 (hmakes.of_mem_callsOf source state goals)

/-- What is asked later comes behind what was asked before. -/
theorem toldSteps_prefix (m : Clocked σ α) (source : Source) (state : σ)
    (goals later : List Grammar.Goal) :
    toldSteps m source state goals <+: toldSteps m source state (goals ++ later) := by
  have hkeeps : m.logged.Keeps fun l => callsOf m source state goals <+: l.calls := by
    intro step c l _ _ hl
    rw [Clocked.ended_perform_logged]
    exact hl.trans (List.prefix_append _ _)
  rw [toldSteps, toldSteps, callsOf, callsOf, Grammar.stand_append]
  exact (Grammar.keeps_stand hkeeps later List.prefix_rfl).map _

/-- However much room there is for output: after any calls, also behind failures, the count of
instructions is that of the line feeds in the sink, and it is empty where there are none. The sink
has that many lines of the code of the calls, and at most a part of the next line behind them, which
is there only if a write has failed; and once one has, the count stays as it is. The calls of a
parser are such calls, whatever is asked of it. A program that is compiled has the count of its
lines. -/
theorem count_never_drifts (limit : Option Nat) (flushFails : Bool) :
    let start : Writing Nat := ⟨0, { room := limit, flushFails }⟩
    let m := Listing.semantics
    (∀ steps : List (Step Unit), (∀ step ∈ steps, step.OneLine) →
      Listing.Tally steps start (m.performAll steps start)) ∧
    (∀ done step later fault s', m.perform step (m.performAll done start) = .error fault s' →
      (m.performAll (done ++ step :: later) start).memory = s'.memory) ∧
    (∀ source goals,
      let steps := toldSteps m.timeless source start goals
      (∀ step ∈ steps, step.OneLine) ∧
      (Grammar.stand m.timeless goals (.start source start)).state = m.performAll steps start ∧
      ∀ later, steps <+: toldSteps m.timeless source start (goals ++ later)) ∧
    ∀ source n, (compile source { room := limit, flushFails }).result = .ok n →
      n = (compile source { room := limit, flushFails }).sink.text.toList.count '\n' := by
  intro start m
  have hstart : Listing.Complete [] start := ⟨Sink.text_start limit flushFails, rfl⟩
  refine ⟨fun steps hsteps => Listing.tally_performAll hstart hsteps, ?_, ?_, ?_⟩
  · intro done step later fault s' hfails
    -- the first failure leaves the sink full, and what comes later changes nothing
    have hroom := Listing.room_of_failure hstart hfails
    rw [performAll_append]
    show (m.performAll later (Action.ended (m.perform step (m.performAll done start)))).memory = _
    rw [hfails]
    exact (Listing.performAll_of_full hroom later).2.1
  · exact fun source goals => ⟨oneLine_of_mem_toldSteps m.timeless source start goals,
      stand_eq_performAll m source start goals, toldSteps_prefix m.timeless source start goals⟩
  · intro source n hok
    -- a compilation is a list of one goal, and its steps are tallied
    obtain ⟨p, hprogram, rfl, htext⟩ := program_of_execute hok
    have hstand : (Grammar.stand m.timeless [.program] (.start source start)).state = p.state := by
      rw [Grammar.stand_cons, Grammar.attempt_snd, Grammar.parse, Action.map_apply, hprogram]
      rfl
    have htally := Listing.tally_performAll hstart
      (oneLine_of_mem_toldSteps m.timeless source start [.program])
    rw [← stand_eq_performAll m source start [.program], hstand] at htally
    rw [show (compile source { room := limit, flushFails }).sink.text = _ from htext]
    exact htally.count

/-- There is room for the `SUB` of a difference, and for half of the `NEG` behind it. -/
theorem count_never_drifts_cut :
    let start : Writing Nat := ⟨0, { room := some 29 }⟩
    let m := Listing.semantics
    let steps : List (Step Unit) := [.number "1", .combine .sub () (), .zero]
    (m.performAll steps start).sink.text = "\tMOVE #1,D0\n\tSUB (SP)+,D0\n\tNE" ∧
    (∀ step ∈ steps, step.OneLine) ∧ Listing.Tally steps start (m.performAll steps start) ∧
    (∃ fault s', m.perform (.combine .sub () ()) (m.performAll [.number "1"] start) =
      .error fault s' ∧ s'.memory = 2 ∧ (m.performAll steps start).memory = s'.memory) ∧
    (compile (.ofText "a=1;")).result = .ok 3 ∧
      3 = (compile (.ofText "a=1;")).sink.text.toList.count '\n' := by
  intro start m steps
  obtain ⟨htally, hfull, -, -⟩ := count_never_drifts (some 29) false
  have hsteps : ∀ step ∈ steps, step.OneLine := by
    simp [steps, Step.OneLine]
  have hcompile : (compile (.ofText "a=1;")).result = .ok 3 := by cbv
  refine ⟨by decide +kernel, hsteps, htally steps hsteps, ⟨_, _, rfl, by cbv, ?_⟩, hcompile, ?_⟩
  · exact hfull [.number "1"] (.combine .sub () ()) [.zero] _ _ rfl
  · exact (count_never_drifts none false).2.2.2 (.ofText "a=1;") 3 hcompile

end OnePass
