import Mathlib.Data.List.DropRight
import OnePass.Proofs.Operands

/-!
# Listings that are cut short

Where a sink has no room for a line it takes a beginning of that line, and the work ends. What it
holds then is the listing of a beginning of the code and a part of one more line (`CutShort`), which
has no line feed. So the complete lines of any output are read as instructions, and these are the
code of the steps that the text is made of, or the beginning of it that there was room for
(`assemble_completeLines`).
-/

namespace OnePass

variable {β : Type}

/-! ## Sinks that become full -/

namespace Sink

theorem fitting_prefix (room : Nat) (cs : List Char) : fitting room cs <+: cs := by
  induction cs generalizing room with
  | nil => exact List.prefix_rfl
  | cons c cs ih =>
    rw [fitting]
    split
    · exact (List.prefix_cons_inj c).2 (ih _)
    · exact List.nil_prefix

/-- If all of it fits there is room for its bytes. -/
theorem size_le_of_fitting_eq {room : Nat} {cs : List Char} (h : fitting room cs = cs) :
    (String.ofList cs).utf8ByteSize ≤ room := by
  induction cs generalizing room with
  | nil => exact Nat.zero_le room
  | cons c cs ih =>
    rw [fitting] at h
    split at h
    · next hc =>
      have hcs := ih (List.cons.inj h).2
      rw [String.ofList_cons, String.utf8ByteSize_append, String.utf8ByteSize_singleton]
      omega
    · cases h

/-- Either all of the text is written, or the sink is full before the end of it. -/
theorem write_cases (piece : String) (sink : Sink) :
    (∃ sink', write piece sink = .ok () sink' ∧ sink'.text = sink.text ++ piece) ∨
      ∃ sink' cs more, write piece sink = .error (.internal "sink full") sink' ∧
        sink'.text = sink.text ++ String.ofList cs ∧ piece.toList = cs ++ more ∧ more ≠ [] := by
  unfold write
  cases sink.room with
  | none => exact .inl ⟨_, rfl, text_append sink piece⟩
  | some room =>
    by_cases hroom : piece.utf8ByteSize ≤ room
    · simp only [hroom, if_true]
      exact .inl ⟨_, rfl, text_append sink piece⟩
    · simp only [hroom, if_false]
      obtain ⟨more, hmore⟩ := fitting_prefix room piece.toList
      refine .inr ⟨_, _, more, rfl, text_append sink _, hmore.symm, ?_⟩
      -- if nothing were left over, all of it would have fit
      rintro rfl
      rw [List.append_nil] at hmore
      have hsize := size_le_of_fitting_eq hmore
      rw [String.ofList_toList] at hsize
      exact hroom hsize

end Sink

/-! ## What is left of a listing -/

/-- The text has, behind `before`, the lines of a beginning of the code and part of the line that
comes next. -/
def CutShort (before : String) (code : List Instruction) (text : String) : Prop :=
  ∃ done rest tail, code = done ++ rest ∧ rest ≠ [] ∧ '\n' ∉ tail ∧
    text = before ++ listing done ++ String.ofList tail

/-- What was cut short before is cut short of more. -/
theorem CutShort.append_right {before text : String} {xs : List Instruction}
    (h : CutShort before xs text) (ys : List Instruction) : CutShort before (xs ++ ys) text := by
  obtain ⟨done, rest, tail, rfl, hrest, htail, htext⟩ := h
  have hne : rest ++ ys ≠ [] := fun h => hrest (List.append_eq_nil_iff.1 h).1
  exact ⟨done, rest ++ ys, tail, List.append_assoc _ _ _, hne, htail, htext⟩

/-- What was cut short behind complete lines is cut short of all. -/
theorem CutShort.append_left {before text : String} {xs ys : List Instruction}
    (h : CutShort (before ++ listing xs) ys text) : CutShort before (xs ++ ys) text := by
  obtain ⟨done, rest, tail, rfl, hrest, htail, htext⟩ := h
  refine ⟨xs ++ done, rest, tail, (List.append_assoc _ _ _).symm, hrest, htail, ?_⟩
  rw [htext, listing_append]
  simp only [String.append_assoc]

namespace Listing

/-- What comes of an action that is to write the lines of the code behind a text. -/
def Prints (before : String) (code : List Instruction) : EStateM.Result Fault (Writing Nat) β → Prop
  | .ok _ s => s.sink.text = before ++ listing code
  | .error fault s => fault = .internal "sink full" ∧ CutShort before code s.sink.text

/-- The second action goes on behind the lines of the first one, and a failure of either cuts short
what both are to write. -/
theorem Prints.bind {γ : Type} {before : String} {xs ys : List Instruction}
    {x : Action (Writing Nat) β} {f : β → Action (Writing Nat) γ} {s : Writing Nat}
    (hx : Prints before xs (x s)) (hf : ∀ b s', Prints s'.sink.text ys (f b s')) :
    Prints before (xs ++ ys) ((x >>= f) s) := by
  show Prints before (xs ++ ys) (EStateM.bind x f s)
  unfold EStateM.bind
  cases hxs : x s with
  | error fault s' =>
    rw [hxs] at hx
    exact ⟨hx.1, hx.2.append_right ys⟩
  | ok b s' =>
    rw [hxs] at hx
    have hys := hf b s'
    rw [show s'.sink.text = _ from hx] at hys
    simp only
    cases hfs : f b s' with
    | error fault s'' =>
      rw [hfs] at hys
      exact ⟨hys.1, hys.2.append_left⟩
    | ok c s'' =>
      rw [hfs] at hys
      exact hys.trans (by rw [listing_append, String.append_assoc])

/-- The only line feed of a line is its last character. -/
theorem not_mem_of_line {instruction : Instruction} (h : '\n' ∉ instruction.text.toList)
    {cs more : List Char} (hline : instruction.line.toList = cs ++ more) (hmore : more ≠ []) :
    '\n' ∉ cs := by
  have hconcat : instruction.line.toList = ('\t' :: instruction.text.toList) ++ ['\n'] := by
    simp [Instruction.line, String.toList_append]
  -- the part is not the whole line, so it does not reach the line feed
  have hbefore : cs ++ more.dropLast = '\t' :: instruction.text.toList := by
    rw [← List.dropLast_append_of_ne_nil hmore, ← hline, hconcat, List.dropLast_concat]
  intro hmem
  have hmem : '\n' ∈ '\t' :: instruction.text.toList :=
    hbefore ▸ List.mem_append_left more.dropLast hmem
  simp [h] at hmem

/-- One instruction is one line, or what there is room for of it. -/
theorem prints_emit {instruction : Instruction} (h : instruction.Plain) (s : Writing Nat) :
    Prints s.sink.text [instruction] (emit instruction s) := by
  have hlisting : listing [instruction] = instruction.line := by simp [listing]
  show Prints _ _ (EStateM.bind (Writing.write instruction.line) _ s)
  unfold EStateM.bind Writing.write
  rcases Sink.write_cases instruction.line s.sink with
    ⟨sink', hwrite, htext⟩ | ⟨sink', cs, more, hwrite, htext, hline, hmore⟩
  · rw [hwrite]
    exact htext.trans (by rw [hlisting])
  · rw [hwrite]
    -- a part of a line, behind no complete one of this step
    have hcs : '\n' ∉ cs := not_mem_of_line (Instruction.not_mem_text h) hline hmore
    refine ⟨rfl, [], [instruction], cs, rfl, List.cons_ne_nil _ _, hcs, ?_⟩
    rw [show listing [] = "" from rfl, String.append_empty]
    exact htext

/-- The instructions of a step are written one after another. -/
theorem prints_compile {step : Step Unit} (h : ∀ i ∈ code step, i.Plain) (s : Writing Nat) :
    Prints s.sink.text (code step) (compile step s) := by
  unfold compile
  generalize code step = instructions at h ⊢
  induction instructions generalizing s with
  | nil => exact String.append_empty.symm
  | cons instruction rest ih =>
    obtain ⟨hinstruction, hrest⟩ := List.forall_mem_cons.1 h
    exact (prints_emit hinstruction s).bind fun _ s' => ih s' hrest

theorem prints_perform {step : Step Unit} (h : ∀ i ∈ code step, i.Plain) (s : Writing Nat) :
    Prints s.sink.text (code step) (semantics.perform step s) := by
  have hcompile := prints_compile h s
  obtain ⟨f, hf⟩ := perform_eq step
  rw [hf, Action.map_apply]
  cases hs : compile step s with
  | ok b s' => rw [hs] at hcompile; exact hcompile
  | error fault s' => rw [hs] at hcompile; exact hcompile

/-- The values of a step are no matter to its code. -/
theorem codeOf_cons {call : Call Nat} {calls : List (Call Nat)} {values : List Unit}
    {step : Step Unit} (hfill : call.step.fill values = some step) :
    codeOf (call :: calls) = code step ++ codeOf calls := by
  rw [codeOf, List.flatMap_cons, code_fill hfill]
  rfl

/-- What a replay writes, whatever there is room for. -/
theorem replay_prints {calls : List (Call Nat)} (hwritten : AllWritten calls) (values : List Unit)
    (s : Writing Nat) :
    match semantics.timeless.replay calls values s with
    | .complete _ s' => s'.sink.text = s.sink.text ++ listing (codeOf calls)
    | .failed _ fault s' =>
      fault = .internal "sink full" ∧ CutShort s.sink.text (codeOf calls) s'.sink.text
    | .stuck => True := by
  fun_induction semantics.timeless.replay calls values s with
  | case1 => exact String.append_empty.symm
  | case2 => trivial
  | case3 call calls values s step hfill answer s' hstep ih =>
    obtain ⟨hcall, hcalls⟩ := List.forall_mem_cons.1 hwritten
    have hprints := prints_perform (code_fill hfill ▸ hcall.plain) s
    rw [show semantics.perform step s = _ from hstep] at hprints
    -- the lines of the step are in front of those of the rest
    have hrest := ih hcalls
    rw [show s'.sink.text = _ from hprints] at hrest
    rw [codeOf_cons hfill]
    cases hreplay : semantics.timeless.replay calls (values ++ answer.toList) s' with
    | stuck => trivial
    | failed place fault s'' =>
      rw [hreplay] at hrest
      exact ⟨hrest.1, hrest.2.append_left⟩
    | complete values' s'' =>
      rw [hreplay] at hrest
      show s''.sink.text = _
      rw [show s''.sink.text = _ from hrest, listing_append, String.append_assoc]
  | case4 call calls values s step hfill fault s' hstep =>
    obtain ⟨hcall, -⟩ := List.forall_mem_cons.1 hwritten
    have hprints := prints_perform (code_fill hfill ▸ hcall.plain) s
    rw [show semantics.perform step s = _ from hstep] at hprints
    rw [codeOf_cons hfill]
    exact ⟨hprints.1, hprints.2.append_right _⟩

end Listing

/-! ## Complete lines -/

/-- The lines of a text that have their line feed. -/
def completeLines (text : String) : String := String.ofList (text.toList.rdropWhile (· ≠ '\n'))

/-- A listing is empty or ends with a line feed. -/
theorem rdropWhile_listing (code : List Instruction) :
    (listing code).toList.rdropWhile (· ≠ '\n') = (listing code).toList := by
  cases code using List.reverseRecOn with
  | nil => rfl
  | append_singleton code i =>
    have hconcat : (listing (code ++ [i])).toList =
        ((listing code).toList ++ '\t' :: i.text.toList) ++ ['\n'] := by
      rw [listing_append, String.toList_append, toList_listing_cons]
      simp [listing]
    rw [hconcat]
    exact List.rdropWhile_concat_neg _ _ _ (by decide)

/-- A part of a line behind a listing is dropped. -/
theorem completeLines_append (code : List Instruction) {tail : List Char} (h : '\n' ∉ tail) :
    completeLines (listing code ++ String.ofList tail) = listing code := by
  have htail : ∀ c ∈ tail.reverse, decide (c ≠ '\n') = true := by
    intro c hc
    exact decide_eq_true fun heq => h (heq ▸ List.mem_reverse.1 hc)
  rw [completeLines, String.toList_append, String.toList_ofList, List.rdropWhile,
    List.reverse_append, List.dropWhile_append_of_pos htail, ← List.rdropWhile,
    rdropWhile_listing, String.ofList_toList]

/-- The complete lines of what is compiled into a sink are a beginning of the code of the steps.
Nothing is missing unless the sink became full; and work that succeeds is that of a program. -/
theorem assemble_completeLines (source : Source) (limit : Option Nat) (flushFails : Bool) :
    let report := compile source { room := limit, flushFails }
    ∃ code rest, assemble (completeLines report.sink.text) = some code ∧
      codeOf (transcript true source).calls = code ++ rest ∧
      (rest ≠ [] → report.result = .error (.internal "sink full")) ∧
      ∀ n, report.result = .ok n → rest = [] ∧ (transcript true source).result = .ok () := by
  intro report
  have hwritten : AllWritten (transcript true source).calls :=
    account_written (Trace.semantics (.ofBool true)).timeless source {}
  have hreplay := Grammar.program_eq_replay Listing.semantics.timeless source
    ⟨0, { room := limit, flushFails }⟩
  have hprints := Listing.replay_prints hwritten [] ⟨0, { room := limit, flushFails }⟩
  rw [show Listing.semantics.timeless.calls = true from rfl] at hreplay
  simp only [Sink.text_start, String.empty_append] at hprints
  cases hend : Listing.semantics.timeless.replay (transcript true source).calls []
      ⟨0, { room := limit, flushFails }⟩ with
  | stuck => rw [hend] at hreplay; exact hreplay.elim
  | failed place fault s =>
    rw [hend] at hreplay hprints
    obtain ⟨rfl, done, rest, tail, hcode, hrest, htail, htext⟩ := hprints
    have hreport : report = _ := execute_eq_error hreplay
    have hdone : ∀ i ∈ done, i.Plain := fun i hi =>
      hwritten.plain i (hcode ▸ List.mem_append_left rest hi)
    -- the sink became full: complete lines of the beginning, and no success
    refine ⟨done, rest, ?_, hcode, fun _ => ?_, fun n hok => ?_⟩
    · rw [hreport, htext, String.empty_append, completeLines_append done htail]
      exact assemble_listing hdone
    · rw [hreport]
    · rw [hreport] at hok
      cases hok
  | complete values s =>
    rw [hend] at hreplay hprints
    -- there was room for everything, and a flush is no matter to the text
    have htext : report.sink.text = s.sink.text :=
      (text_execute _ _ _ _).trans (by rw [hreplay, ended_finished])
    refine ⟨codeOf (transcript true source).calls, [], ?_, (List.append_nil _).symm, ?_, ?_⟩
    · have hlines := completeLines_append (codeOf (transcript true source).calls) List.not_mem_nil
      rw [String.ofList_nil, String.append_empty] at hlines
      rw [htext, hprints, hlines]
      exact assemble_listing hwritten.plain
    · exact fun h => (h rfl).elim
    · intro n hok
      obtain ⟨p, hprogram, -⟩ := program_of_execute hok
      have hends : finished _ _ s = finished (.ok ()) p.cursor p.state :=
        hreplay.symm.trans hprogram
      exact ⟨rfl, (finished_inj hends).1⟩

/-- Here there is room for the `SUB` of a difference and not for all of the `NEG` behind it. -/
example : completeLines (compile (.ofText "a=1-2;") { room := some 55 }).sink.text =
    "\tMOVE #1,D0\n\tMOVE D0,-(SP)\n\tMOVE #2,D0\n\tSUB (SP)+,D0\n" := by cbv

end OnePass
