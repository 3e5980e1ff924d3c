import OnePass.Proofs.Discipline
import OnePass.Proofs.Truncation

/-!
# The stack of compiled code

Compiled code pops no more than it has pushed, and where a statement stores or writes a value the
stack is as it was at the start (`compile_stackSafe`). This holds of every listing, also of a text
that is no program or in a sink that becomes full. A subroutine is taken to leave the stack as it
found it.

What is on the stack are the values that are held (`Live`). So each step finds the stack as the code
of the step needs it (`Sound.step`), and a run leads from step to step (`Sound.run`). An instruction
is judged by those in front of it (`MayFollow`), which a limit of the sink cannot change.
-/

namespace OnePass

variable {α : Type}

namespace Instruction

def pushes : Instruction → Bool
  | push => true
  | _ => false

def pops : Instruction → Bool
  | popDivisor | add | sub | mul => true
  | _ => false

/-- The instruction that has to come next, if this one does half of what is to be done. -/
def partner? : Instruction → Option Instruction
  | address _ => some store
  | popDivisor => some div
  | sub => some neg
  | _ => none

/-- Whether this is the second half of something. -/
def isPartner : Instruction → Bool
  | store | div | neg => true
  | _ => false

end Instruction

/-- How many words the code pushes. -/
def pushed (code : List Instruction) : Nat := code.countP Instruction.pushes

/-- How many words the code pops. -/
def popped (code : List Instruction) : Nat := code.countP Instruction.pops

/-- The code leaves the stack as deep as it was. -/
def Balanced (code : List Instruction) : Prop := popped code = pushed code

/-- The instruction that has to come next. -/
def due (code : List Instruction) : Option Instruction := code.getLast?.bind Instruction.partner?

theorem pushed_append (xs ys : List Instruction) : pushed (xs ++ ys) = pushed xs + pushed ys :=
  List.countP_append

theorem popped_append (xs ys : List Instruction) : popped (xs ++ ys) = popped xs + popped ys :=
  List.countP_append

/-- What is due is settled by the last instruction alone. -/
theorem due_concat (code : List Instruction) (i : Instruction) :
    due (code ++ [i]) = i.partner? := by
  rw [due, List.getLast?_concat]
  rfl

/-! ## One instruction behind others -/

/-- The instruction may stand behind the code. -/
structure MayFollow (code : List Instruction) (i : Instruction) : Prop where
  pops : i.pops = true → popped code < pushed code
  address : ∀ name, i = .address name → Balanced code
  output : i = .branch "WRITE" → Balanced code
  second : i.isPartner = true → due code = some i
  first : ∀ j, due code = some j → i = j

/-- Every instruction may stand behind those in front of it. -/
def Safe (code : List Instruction) : Prop :=
  ∀ before i after, code = before ++ i :: after → MayFollow before i

/-- The second half of something may follow the first. -/
theorem mayFollow_of_due {code : List Instruction} {i : Instruction} (h : due code = some i) :
    MayFollow code i := by
  obtain ⟨j, -, hj⟩ := Option.bind_eq_some_iff.1 h
  have hi : i = .store ∨ i = .div ∨ i = .neg := by
    cases j <;> cases hj <;> simp
  have hfirst : ∀ k, due code = some k → i = k := fun k hk => Option.some.inj (h.symm.trans hk)
  rcases hi with rfl | rfl | rfl <;>
    exact ⟨nofun, nofun, nofun, fun _ => h, hfirst⟩

/-- Where nothing is due, what is no second half may follow if it finds the stack as it needs it. -/
theorem mayFollow_of_due_eq_none {code : List Instruction} {i : Instruction}
    (h : due code = none) (hpops : i.pops = true → popped code < pushed code)
    (haddress : ∀ name, i = .address name → Balanced code)
    (houtput : i = .branch "WRITE" → Balanced code) (hpartner : i.isPartner = false) :
    MayFollow code i := by
  refine ⟨hpops, haddress, houtput, fun hi => ?_, fun j hj => ?_⟩
  · rw [hpartner] at hi
    cases hi
  · rw [h] at hj
    cases hj

/-- No instruction stands in the wrong place where there is none. -/
theorem safe_nil : Safe [] := fun before i after h => by
  cases before <;> cases h

/-- A beginning of safe code is safe, since each instruction is judged by those in front of it. -/
theorem Safe.of_append {xs ys : List Instruction} (h : Safe (xs ++ ys)) : Safe xs :=
  fun before i after hxs => h before i (after ++ ys) (by rw [hxs, List.append_assoc]; rfl)

/-- Behind safe code, an instruction that may follow keeps it safe. -/
theorem Safe.concat {code : List Instruction} (h : Safe code) {i : Instruction}
    (hi : MayFollow code i) : Safe (code ++ [i]) := by
  intro before j after hcode
  -- the place is the last one, or was there before
  rcases List.eq_nil_or_concat after with rfl | ⟨after', k, rfl⟩
  · obtain ⟨rfl, hlast⟩ := List.append_inj' hcode rfl
    cases hlast
    exact hi
  · have hcode : code ++ [i] = (before ++ j :: after') ++ [k] := by
      rw [hcode]
      simp
    obtain ⟨rfl, -⟩ := List.append_inj' hcode rfl
    exact h before j after' rfl

/-- Safe code has pushed all that it pops. -/
theorem Safe.popped_le {code : List Instruction} (h : Safe code) : popped code ≤ pushed code := by
  -- from the last instruction on, for what may follow is known from those in front
  induction code using List.reverseRecOn with
  | nil => exact Nat.le_refl 0
  | append_singleton code i ih =>
    have hcode := ih h.of_append
    have hi := (h code i [] rfl).pops
    rw [popped_append, pushed_append]
    cases hpops : i.pops with
    | true =>
      have hone : popped [i] = 1 := by simp [popped, hpops]
      have := hi hpops
      omega
    | false =>
      have hzero : popped [i] = 0 := by simp [popped, hpops]
      omega

/-! ## Steps -/

/-- The code may stop here or go on with any construct: all that it has pushed and not popped are
the held values. -/
structure Sound (live : Live α) (code : List Instruction) : Prop where
  safe : Safe code
  due : due code = none
  depth : pushed code = popped code + live.held.length

namespace Sound

variable {live live' : Live α} {code : List Instruction} {i j : Instruction}

theorem nil : Sound ({} : Live α) [] := ⟨safe_nil, rfl, rfl⟩

/-- A step with one instruction, which needs no partner. -/
theorem concat (h : Sound live code) (hi : MayFollow code i) (hpartner : i.partner? = none)
    (hdepth : pushed [i] + live.held.length = popped [i] + live'.held.length) :
    Sound live' (code ++ [i]) := by
  refine ⟨h.safe.concat hi, (due_concat code i).trans hpartner, ?_⟩
  have := h.depth
  rw [pushed_append, popped_append]
  omega

/-- A step with two instructions, of which the first one needs the second. -/
theorem concat_pair (h : Sound live code) (hi : MayFollow code i) (hpartner : i.partner? = some j)
    (hdone : j.partner? = none)
    (hdepth : pushed [i, j] + live.held.length = popped [i, j] + live'.held.length) :
    Sound live' (code ++ [i, j]) := by
  have hcode : code ++ [i, j] = code ++ [i] ++ [j] := by simp
  -- the first one makes the second one due
  have hj : MayFollow (code ++ [i]) j := mayFollow_of_due ((due_concat code i).trans hpartner)
  rw [hcode]
  refine ⟨(h.safe.concat hi).concat hj, (due_concat _ j).trans hdone, ?_⟩
  have := h.depth
  rw [← hcode, pushed_append, popped_append]
  omega

/-- With nothing held the stack is as it was. -/
theorem balanced (h : Sound live code) (hheld : live.held = []) : Balanced code := by
  have hdepth := h.depth
  rw [hheld] at hdepth
  exact hdepth.symm

/-- A value that is held is a word that can be popped. -/
theorem lt_of_held (h : Sound live code) {a : α} (hheld : live.held.head? = some a) :
    popped code < pushed code := by
  obtain ⟨rest, hrest⟩ := List.head?_eq_some_iff.1 hheld
  have hdepth := h.depth
  rw [hrest, List.length_cons] at hdepth
  omega

/-- An instruction that has nothing to do with the stack. -/
theorem quiet (h : Sound live code) (hpushes : i.pushes = false) (hpops : i.pops = false)
    (hpartner : i.partner? = none) (hsecond : i.isPartner = false) (houtput : i ≠ .branch "WRITE")
    (hheld : live'.held = live.held) : Sound live' (code ++ [i]) := by
  have haddress (name : String) : i ≠ .address name := by
    rintro rfl
    cases hpartner
  have hfollows : MayFollow code i :=
    mayFollow_of_due_eq_none h.due (fun hi => by rw [hpops] at hi; cases hi)
      (fun name hi => absurd hi (haddress name)) (fun hi => absurd hi houtput) hsecond
  refine h.concat hfollows hpartner ?_
  simp [pushed, popped, hpushes, hpops, hheld]

/-- The code of a step may stand wherever the step is admitted. -/
theorem step (h : Sound live code) {step : Step α} {answer : Option α}
    (hadmits : live.Admits step) (hwritten : step.Written)
    (hanswer : answer.isSome = step.hasValue) :
    Sound (live.answered answer step) (code ++ Listing.code step) := by
  cases step with
  | zero => exact h.quiet rfl rfl rfl rfl nofun rfl
  | number digits => exact h.quiet rfl rfl rfl rfl nofun rfl
  | load name => exact h.quiet rfl rfl rfl rfl nofun rfl
  | call name =>
    obtain ⟨c, hc, rfl⟩ := hwritten
    exact h.quiet rfl rfl rfl rfl (fun hi => nameOf_ne_write c (Instruction.branch.inj hi)) rfl
  | hold lhs =>
    -- the word that is pushed is the value that is put aside
    obtain ⟨put, rfl⟩ := Option.isSome_iff_exists.1 hanswer
    refine h.concat (mayFollow_of_due_eq_none h.due nofun nofun nofun rfl) rfl ?_
    show 1 + live.held.length = 0 + (live.held.length + 1)
    omega
  | combine op lhs rhs =>
    -- and every operator pops the latest of these
    have hlt := h.lt_of_held hadmits.1
    obtain ⟨held, hheld⟩ := List.head?_eq_some_iff.1 hadmits.1
    have hdepth : 0 + live.held.length = 1 + live.held.tail.length := by
      rw [hheld, List.tail_cons, List.length_cons]
      omega
    have hpop {i : Instruction} (haddress : ∀ name, i ≠ .address name)
        (houtput : i ≠ .branch "WRITE") (hsecond : i.isPartner = false) : MayFollow code i :=
      mayFollow_of_due_eq_none h.due (fun _ => hlt) (fun name hi => absurd hi (haddress name))
        (fun hi => absurd hi houtput) hsecond
    cases op with
    | add => exact h.concat (hpop nofun nofun rfl) rfl hdepth
    | sub => exact h.concat_pair (hpop nofun nofun rfl) rfl rfl hdepth
    | mul => exact h.concat (hpop nofun nofun rfl) rfl hdepth
    | div => exact h.concat_pair (hpop nofun nofun rfl) rfl rfl hdepth
  | assign name value =>
    have hbalanced := h.balanced hadmits.2
    have haddress : MayFollow code (.address name) :=
      mayFollow_of_due_eq_none h.due nofun (fun _ _ => hbalanced) nofun rfl
    exact h.concat_pair haddress rfl rfl rfl
  | print name =>
    -- the load leaves the stack as it is, so the branch tells how deep it is before both
    have hload : Sound live (code ++ [.load name]) := h.quiet rfl rfl rfl rfl nofun rfl
    have hbalanced := hload.balanced hadmits.2
    have hwrite : Sound live (code ++ [.load name] ++ [.branch "WRITE"]) :=
      hload.concat (mayFollow_of_due_eq_none hload.due nofun nofun (fun _ => hbalanced) rfl) rfl rfl
    rwa [List.append_assoc] at hwrite

/-- A run that is admitted keeps the code sound. -/
theorem run (h : Sound live code) {calls : List (Call α)} (hadmits : live.AdmitsAll calls)
    (hwritten : AllWritten calls) (hsucceed : ∀ call ∈ calls, call.Succeeds) :
    Sound (live.afterAll calls) (code ++ codeOf calls) := by
  induction calls generalizing live code with
  | nil => exact (List.append_nil code).symm ▸ h
  | cons call calls ih =>
    -- the step is admitted where it is made, and what it holds behind it is known from its answer
    obtain ⟨hcall, hanswer, hcalls⟩ := hadmits
    obtain ⟨hwrites, hwritten⟩ := List.forall_mem_cons.1 hwritten
    obtain ⟨⟨answer, hok⟩, hsucceed⟩ := List.forall_mem_cons.1 hsucceed
    have hafter : live.after call = live.answered answer call.step := by
      rw [Live.after, hok]
    have hstep := h.step hcall hwrites (hanswer answer hok)
    rw [← hafter] at hstep
    have hrest := ih hstep hcalls hwritten hsucceed
    rwa [List.append_assoc] at hrest

end Sound

/-! ## Whole programs -/

/-- The code of any text is sound, and with nothing held at the end of a program. -/
theorem sound_transcript (source : Source) :
    ∃ live : Live Nat, Sound live (codeOf (transcript true source).calls) ∧
      ((transcript true source).result = .ok () → live = {}) := by
  have hadmitted := account_admitted (Trace.semantics (.ofBool true)).timeless source {}
  have hwritten := account_written (Trace.semantics (.ofBool true)).timeless source {}
  have hsucceed := (transcript_numbered true source).1
  exact ⟨_, Sound.nil.run hadmitted.1 hwritten hsucceed, hadmitted.2⟩

/-- What is asked of the instructions `code`, behind which `rest` would have to stand. -/
structure StackSafe (code rest : List Instruction) : Prop where
  /-- After each instruction, no more has been popped than pushed. -/
  popped_le : ∀ before, before <+: code → popped before ≤ pushed before
  /-- An assignment finds the stack as it was. -/
  assignment : ∀ before name after, code = before ++ .address name :: after → Balanced before
  /-- An output, which is a load in front of a branch to `WRITE`, finds the stack as it was. -/
  output : ∀ before name after,
    code ++ rest = before ++ .load name :: .branch "WRITE" :: after → Balanced before
  /-- What does the second half of something comes right after the first. -/
  second : ∀ before i after, code = before ++ i :: after → i.isPartner = true →
    ∃ earlier j, before = earlier ++ [j] ∧ j.partner? = some i
  /-- What does the first half comes right before the second, if not at the end of what there was
  room for. -/
  first : ∀ before i j after, code = before ++ i :: after → i.partner? = some j →
    after.head? = some j ∨ after = [] ∧ rest ≠ []

/-- All that is asked of instructions is asked of each by those in front of it. -/
theorem Safe.stackSafe {code rest : List Instruction} (h : Safe (code ++ rest))
    (hdue : due (code ++ rest) = none) : StackSafe code rest where
  popped_le := by
    rintro before ⟨after, rfl⟩
    exact h.of_append.of_append.popped_le
  assignment before name after hcode := (h.of_append before _ after hcode).address name rfl
  output before name after hcode := by
    have hwrite : MayFollow (before ++ [.load name]) (.branch "WRITE") :=
      h _ _ after (by rw [hcode, List.append_assoc]; rfl)
    have hbalanced := hwrite.output rfl
    rwa [Balanced, popped_append, pushed_append] at hbalanced
  second before i after hcode hi := by
    have hlast := (h.of_append before i after hcode).second hi
    obtain ⟨j, hlast, hj⟩ := Option.bind_eq_some_iff.1 hlast
    obtain ⟨earlier, rfl⟩ := List.getLast?_eq_some_iff.1 hlast
    exact ⟨earlier, j, rfl, hj⟩
  first before i j after hcode hj := by
    have hcode : code ++ rest = before ++ [i] ++ (after ++ rest) := by
      rw [hcode]
      simp
    have hnext : due (before ++ [i]) = some j := (due_concat before i).trans hj
    cases after with
    | cons k after =>
      exact .inl (congrArg some ((h _ k (after ++ rest) hcode).first j hnext))
    | nil =>
      refine .inr ⟨rfl, fun hrest => ?_⟩
      -- nothing is due at the end of all the code
      rw [hcode, hrest, List.nil_append, List.append_nil, hnext] at hdue
      cases hdue

/-- The stack of whatever is compiled, for any text and any sink. The complete lines of the output
are the first instructions of the listing that the text has without a limit. -/
theorem compile_stackSafe (source : Source) (limit : Option Nat) (flushFails : Bool) :
    let report := compile source { room := limit, flushFails }
    ∃ code rest, assemble (completeLines report.sink.text) = some code ∧
      assemble (compile source).sink.text = some (code ++ rest) ∧
      StackSafe code rest ∧
      (rest ≠ [] → report.result = .error (.internal "sink full")) ∧
      (∀ n, (compile source).result = .ok n → Balanced (code ++ rest)) ∧
      ∀ n, report.result = .ok n → rest = [] ∧ Balanced code := by
  intro report
  obtain ⟨live, hsound, hlive⟩ := sound_transcript source
  obtain ⟨code, rest, hassembles, hcode, hfull, hok⟩ :=
    assemble_completeLines source limit flushFails
  -- the same text without a limit
  obtain ⟨_, _, _, _, _, haccepted⟩ := assemble_completeLines source none false
  -- a text that is accepted ends with nothing held
  have hbalanced (h : (transcript true source).result = .ok ()) : Balanced (code ++ rest) := by
    rw [← hcode]
    exact hsound.balanced (congrArg Live.held (hlive h))
  have hlisting := assemble_compile source
  rw [hcode] at hsound hlisting
  refine ⟨code, rest, hassembles, hlisting, hsound.safe.stackSafe hsound.due, hfull, ?_, ?_⟩
  · exact fun n h => hbalanced (haccepted n h).2
  · intro n h
    obtain ⟨rfl, hresult⟩ := hok n h
    exact ⟨rfl, List.append_nil code ▸ hbalanced hresult⟩

end OnePass
