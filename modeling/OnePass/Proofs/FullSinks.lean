import OnePass.Proofs.Confinement

/-!
# Output that is cut off

A limit on the output changes nothing but the output. If all of it is within the limit, the same
work is done and the sink is flushed at the end, as it is without a limit. If not, the work ends
with the first byte that there is no room for; what is in the sink then is a beginning of the whole
output, and nothing more is read or written (`output_truncated`).

What is written is plain ASCII, so that a limit never falls into the middle of a character: the
decimal numbers of a run (`ascii_run`), and the instructions of a listing, whose operands are names
and numbers of the text (`ascii_compile`).
-/

namespace OnePass

variable {μ σ α β : Type}

/-! ## The order of the calls -/

/-- The calls are in order, and none was made behind the place of the cursor. -/
structure Behind (p : Progress (Logged σ α)) : Prop where
  ordered : Ordered p.state.calls
  le : ∀ call ∈ p.state.calls, call.place.source.requests ≤ p.cursor.source.requests

theorem Cursor.Reads.requests_le {c c' : Cursor} {t : List Char} (h : c.Reads t c') :
    c.source.requests ≤ c'.source.requests := by
  have hlength : t.length ≤ c.unread.length := by
    rw [h.unread, List.length_append]
    exact Nat.le_add_right _ _
  rw [h.eq_skip, (Cursor.offset_skip hlength).2]
  exact Nat.le_add_right _ _

/-- A call is made where the cursor stands, so behind all the others. -/
theorem Behind.concat {p : Progress (Logged σ α)} (h : Behind p) {call : Call α} {s : σ}
    (hcall : call.place = p.cursor) :
    Behind ⟨p.cursor, s, p.cursor, p.state.calls ++ [call]⟩ := by
  refine ⟨?_, ?_⟩
  · refine List.pairwise_append.2 ⟨h.ordered, List.pairwise_singleton _ _, fun earlier hmem => ?_⟩
    rw [List.forall_mem_singleton, hcall]
    exact h.le earlier hmem
  · refine List.forall_mem_append.2 ⟨h.le, List.forall_mem_singleton.2 ?_⟩
    rw [hcall]

/-- Reading leaves all calls behind, and a call is made where the cursor stands. -/
theorem behind_leads (m : Clocked σ α) :
    m.logged.Leads fun p q : Progress (Logged σ α) => Behind p → Behind q where
  refl p := id
  trans h h' := h' ∘ h
  read p t c hreads hp :=
    ⟨hp.ordered, fun call hcall => (hp.le call hcall).trans hreads.requests_le⟩
  step step p _ hp := by
    obtain ⟨c, s, place, log⟩ := p
    show Behind ⟨c, Action.ended (m.logged.perform step (m.logged.tick c ⟨s, place, log⟩))⟩
    -- the call is noted at the place where the cursor stands
    cases h : m.perform step (m.tick c s) with
    | ok answer s' =>
      rw [Clocked.perform_logged_ok h]
      exact hp.concat rfl
    | error fault s' =>
      rw [Clocked.perform_logged_error h]
      exact hp.concat rfl

/-- The calls of an account are in the order of their places, and the last of these is the place
where the cursor has stopped. -/
theorem account_ordered (m : Clocked σ α) (source : Source) (state : σ) :
    Ordered (account m source state).calls ∧
      ∀ call ∈ (account m source state).calls,
        call.place.source.requests ≤ (account m source state).cursor.source.requests := by
  -- at the start nothing is noted
  have hbehind := Grammar.leads_program (behind_leads m) (.start source ⟨state, .start source, []⟩)
    ⟨List.Pairwise.nil, List.forall_mem_nil _⟩
  unfold account
  cases hprogram : Grammar.program m.logged (.start source ⟨state, .start source, []⟩) with
  | ok _ q =>
    rw [hprogram] at hbehind
    exact ⟨hbehind.ordered, hbehind.le⟩
  | error fault q =>
    rw [hprogram] at hbehind
    exact ⟨hbehind.ordered, hbehind.le⟩

/-- The calls of a transcript come in the order of their places, none behind the end. -/
theorem transcript_ordered (calls : Bool) (source : Source) :
    Ordered (transcript calls source).calls ∧
      ∀ call ∈ (transcript calls source).calls,
        call.place.source.requests ≤ (transcript calls source).cursor.source.requests :=
  account_ordered (Trace.semantics (.ofBool calls)).timeless source {}

/-! ## Bytes -/

/-- Every character of the text is one byte. -/
def Ascii (text : String) : Prop := ∀ c ∈ text.toList, c.utf8Size = 1

instance (text : String) : Decidable (Ascii text) :=
  decidable_of_decidable_of_iff (p := text.toList.all (·.utf8Size = 1) = true) (by simp [Ascii])

theorem Ascii.append {s t : String} (hs : Ascii s) (ht : Ascii t) : Ascii (s ++ t) := by
  intro c hc
  rw [String.toList_append] at hc
  exact (List.mem_append.1 hc).elim (hs c) (ht c)

/-- Of ASCII as many characters fit as bytes. -/
theorem utf8Size_fitting {bytes : Nat} {cs : List Char} (h : ∀ c ∈ cs, c.utf8Size = 1)
    (hlt : bytes < (String.ofList cs).utf8ByteSize) :
    (String.ofList (Sink.fitting bytes cs)).utf8ByteSize = bytes := by
  induction cs generalizing bytes with
  | nil => exact absurd hlt (Nat.not_lt_zero _)
  | cons c cs ih =>
    obtain ⟨hc, hcs⟩ := List.forall_mem_cons.1 h
    rw [String.ofList_cons, String.utf8ByteSize_append, String.utf8ByteSize_singleton, hc] at hlt
    rw [Sink.fitting]
    -- a byte is left for the character, or the text stops in front of it
    cases bytes with
    | zero =>
      rw [if_neg (by omega)]
      rfl
    | succ bytes =>
      rw [if_pos (by omega), String.ofList_cons, String.utf8ByteSize_append,
        String.utf8ByteSize_singleton, hc, Nat.add_sub_cancel, ih hcs (by omega), Nat.add_comm]

/-- What fits of an ASCII text is as many of its bytes as there is room for. -/
theorem toUTF8_of_cutTo {limit : Option Nat} {text : String} {sink : Sink} {bytes : Nat}
    (h : CutTo limit text sink) (hlimit : limit = some bytes) (htext : Ascii text) :
    sink.text.toUTF8 = text.toUTF8.extract 0 bytes := by
  obtain ⟨bytes', hlimit', hlt, hsink⟩ := h.text
  obtain rfl : bytes' = bytes := Option.some.inj (hlimit'.symm.trans hlimit)
  obtain ⟨more, hmore⟩ := Sink.fitting_prefix bytes' text.toList
  -- what was written is a beginning of the text
  have hsplit : text = sink.text ++ String.ofList more := by
    rw [hsink, ← String.ofList_append, hmore, String.ofList_toList]
  have hsize : sink.text.utf8ByteSize = bytes' := by
    rw [hsink]
    exact utf8Size_fitting htext (by rwa [String.ofList_toList])
  show sink.text.toByteArray = text.toByteArray.extract 0 bytes'
  conv_rhs => rw [hsplit]
  rw [String.toByteArray_append, ByteArray.extract_append_eq_left hsize.symm]

/-! ## Decimal numbers and instructions -/

theorem utf8Size_of_isAlphanum {c : Char} (h : c.isAlphanum = true) : c.utf8Size = 1 := by
  rw [Char.utf8Size_eq_one_iff, UInt32.le_iff_toNat_le]
  simp [Char.isAlphanum, Char.isAlpha, Char.isUpper, Char.isLower, Char.isDigit,
    UInt32.le_iff_toNat_le] at h ⊢
  omega

/-- A decimal number is ASCII. -/
theorem ascii_toString (n : Int) : Ascii (toString n) := by
  have hdigits (k : Nat) : Ascii (Nat.repr k) := by
    intro c hc
    rw [Nat.toList_repr] at hc
    have hdigit : c.isDigit = true := (Word.digits_toDigits k).2 c hc
    exact utf8Size_of_isAlphanum (by rw [Char.isAlphanum, hdigit, Bool.or_true])
  rw [Int.toString_eq_repr, Int.repr_eq_if]
  split
  · exact hdigits _
  · exact (by decide : Ascii "-").append (hdigits _)

/-- An instruction with a plain operand is ASCII. -/
theorem Instruction.ascii_line {instruction : Instruction} (h : instruction.Plain) :
    Ascii instruction.line := by
  have hword {operand : String} (hoperand : IsWord operand) : Ascii operand := fun c hc =>
    utf8Size_of_isAlphanum (hoperand.2 c hc)
  have htext : Ascii instruction.text := by
    cases instruction with
    | constant operand => exact ((by decide : Ascii "MOVE #").append (hword h)).append (by decide)
    | load operand => exact ((by decide : Ascii "MOVE ").append (hword h)).append (by decide)
    | address operand => exact ((by decide : Ascii "LEA ").append (hword h)).append (by decide)
    | branch operand => exact (by decide : Ascii "BSR ").append (hword h)
    | clear => decide
    | store => decide
    | push => decide
    | popDivisor => decide
    | add => decide
    | sub => decide
    | neg => decide
    | mul => decide
    | div => decide
  exact ((by decide : Ascii "\t").append htext).append (by decide)

/-- So is a listing of them. -/
theorem ascii_listing {code : List Instruction} (h : ∀ i ∈ code, i.Plain) :
    Ascii (listing code) := by
  induction code with
  | nil => decide
  | cons i code ih =>
    obtain ⟨hi, hcode⟩ := List.forall_mem_cons.1 h
    rw [← List.singleton_append, listing_append]
    refine Ascii.append ?_ (ih hcode)
    have hline := Instruction.ascii_line hi
    simpa [listing] using hline

/-- A listing is ASCII, whatever the text is. -/
theorem ascii_compile (source : Source) : Ascii (compile source).sink.text := by
  have hwritten : AllWritten (transcript true source).calls :=
    account_written (Trace.semantics (.ofBool true)).timeless source {}
  rw [text_compile]
  exact ascii_listing hwritten.plain

/-- What is written beside ASCII leaves it ASCII, also where there is no room for all of it. -/
theorem ascii_write {piece : String} (hpiece : Ascii piece) (s : Writing μ)
    (hs : Ascii s.sink.text) :
    Ascii (Action.ended (Writing.write piece s)).sink.text := by
  unfold Writing.write
  rcases Sink.write_cases piece s.sink with
    ⟨sink, hwrite, htext⟩ | ⟨sink, cs, more, hwrite, htext, hline, -⟩
  · rw [hwrite]
    show Ascii sink.text
    rw [htext]
    exact hs.append hpiece
  · rw [hwrite]
    show Ascii sink.text
    rw [htext]
    refine hs.append fun c hc => hpiece c ?_
    -- of a piece that is cut a beginning is written
    rw [String.toList_ofList] at hc
    rw [hline]
    exact List.mem_append_left more hc

/-- No step of a run writes anything else. -/
theorem Evaluation.ascii_along : semantics.timeless.Along fun s t : Writing Store =>
    Ascii s.sink.text → Ascii t.sink.text where
  refl s := id
  trans h h' := h' ∘ h
  step step c s _ hs := by
    -- a step of arithmetic writes nothing
    have hexcept (r : Except Fault Word) :
        Ascii (Action.ended
          ((some <$> Action.ofExcept r : Action _ (Option Word)) s)).sink.text := by
      rw [Action.ended_map]
      cases r <;> exact hs
    cases step with
    | zero => exact hs
    | number digits => exact hexcept _
    | load name => exact hs
    | call name => exact hs
    | hold lhs => exact hs
    | combine op lhs rhs => exact hexcept _
    | assign name value => exact hs
    | print name =>
      have hline : Ascii ((s.memory.get name).text ++ "\n") :=
        (ascii_toString _).append (by decide)
      show Ascii (Action.ended
        (((fun _ => none) <$> semantics.print name : Action _ (Option Word)) s)).sink.text
      rw [Action.ended_map]
      exact ascii_write hline s hs

/-- What a run writes is ASCII. -/
theorem ascii_run (source : Source) : Ascii (run source).sink.text := by
  rw [run, text_execute]
  exact Grammar.moves_program Evaluation.ascii_along (.start source ⟨{}, {}⟩)
    (by decide : Ascii "")

/-! ## Whole programs -/

/-- What is reported of work whose output has a limit, beside the report of the same work where
there is room for everything and a flush works. -/
structure Report.Truncated (limit : Option Nat) (flushFails : Bool) (report free : Report μ) :
    Prop where
  fits : Fits limit free.sink.text →
    report.sink.text = free.sink.text ∧ report.source = free.source ∧
      match free.result with
      | .ok memory => report.sink.flushes = 1 ∧ report.result =
        if flushFails then .error (.internal "flush failed") else .ok memory
      | .error fault => report.sink.flushes = 0 ∧ report.result = .error fault
  full : ∀ bytes, limit = some bytes → bytes < free.sink.text.utf8ByteSize →
    report.result = .error (.internal "sink full") ∧
      report.sink.text.toUTF8 = free.sink.text.toUTF8.extract 0 bytes ∧
      report.sink.flushes = 0 ∧ report.source.requests ≤ free.source.requests

/-- Work whose output was cut ends with the first bytes of it. -/
theorem execute_of_cutTo {m : Clocked (Writing μ) α} {memory : μ} {source : Source} {sink : Sink}
    {limit : Option Nat} {text : String} {bytes : Nat} {c : Cursor} {s : Writing μ}
    (h : Grammar.program m (.start source { memory, sink }) =
      .error (.internal "sink full") ⟨c, s⟩)
    (hcut : CutTo limit text s.sink) (hlimit : limit = some bytes) (htext : Ascii text) :
    let report := execute m memory source sink
    report.result = .error (.internal "sink full") ∧
      report.sink.text.toUTF8 = text.toUTF8.extract 0 bytes ∧ report.sink.flushes = 0 ∧
      report.source = c.source := by
  intro report
  rw [show report = _ from execute_eq_error h]
  exact ⟨rfl, toUTF8_of_cutTo hcut hlimit htext, hcut.flushes, rfl⟩

theorem not_fits_of_lt {limit : Option Nat} {text : String} {bytes : Nat}
    (hlimit : limit = some bytes) (hlt : bytes < text.utf8ByteSize) : ¬ Fits limit text :=
  fun hfits => absurd (hfits bytes hlimit) (Nat.not_le_of_lt hlt)

/-- An execution with a limit beside one without. The calls of the transcript are replayed with both
sinks, and the ends compared. -/
theorem execute_truncated {m : Semantics (Writing μ) α} {limit : Option Nat} {flushFails : Bool}
    (hm : ∀ step, Composed (m.perform step)) (memory : μ) (source : Source)
    (hascii : Ascii (execute m.timeless memory source {}).sink.text) :
    (execute m.timeless memory source { room := limit, flushFails }).Truncated limit flushFails
      (execute m.timeless memory source {}) := by
  obtain ⟨hordered, hplaces⟩ := transcript_ordered m.calls source
  have hstart : (⟨memory, { room := limit, flushFails }⟩ : Writing μ) =
      Writing.confined limit flushFails ⟨memory, {}⟩ := by
    cases limit <;> rfl
  have hfree := Grammar.program_eq_replay m.timeless source ⟨memory, {}⟩
  have hlimited :=
    Grammar.program_eq_replay m.timeless source ⟨memory, { room := limit, flushFails }⟩
  have hobeys (step : Step α) : Obeys limit flushFails (m.perform step) := (hm step).obeys
  -- at the start nothing is written, so the sinks are alike
  have hconfined := replay_confined hobeys hordered [] ⟨memory, {}⟩ ⟨Sink.unlimited_empty, rfl⟩
    fun _ _ => Nat.zero_le _
  rw [← hstart] at hconfined
  rw [show m.timeless.calls = m.calls from rfl] at hfree hlimited
  cases hreplay : m.timeless.replay (transcript m.calls source).calls [] ⟨memory, {}⟩ with
  | stuck => rw [hreplay] at hfree; exact hfree.elim
  | failed place fault s =>
    rw [hreplay] at hfree hconfined
    obtain ⟨hs, hfits, hfull⟩ := hconfined
    rw [execute_eq_error hfree] at hascii ⊢
    refine ⟨fun h => ?_, fun bytes hlimit hlt => ?_⟩
    · rw [hfits h] at hlimited
      rw [execute_eq_error hlimited]
      exact ⟨rfl, rfl, hs.flushes, rfl⟩
    · -- the limit was passed before the fault
      obtain ⟨call, -, t, hends, hcut, hle⟩ := hfull (not_fits_of_lt hlimit hlt)
      rw [hends] at hlimited
      obtain ⟨hresult, htext, hflushes, hsource⟩ := execute_of_cutTo hlimited hcut hlimit hascii
      exact ⟨hresult, htext, hflushes, hsource ▸ hle⟩
  | complete values s =>
    rw [hreplay] at hfree hconfined
    obtain ⟨hs, hfits, hfull⟩ := hconfined
    obtain ⟨-, htext, hsource⟩ := execute_of_finished hfree hs.unlimited
    refine ⟨fun h => ?_, fun bytes hlimit hlt => ?_⟩
    · rw [htext] at h
      rw [hfits h] at hlimited
      simp only at hfree hlimited
      cases hresult : (transcript m.calls source).result with
      | ok _ =>
        rw [hresult] at hfree hlimited
        rw [execute_eq_ok hfree hs.unlimited, execute_of_ok hlimited]
        refine ⟨?_, rfl, ?_, rfl⟩
        · exact (Sink.text_flushed _).trans s.sink.text_flushed.symm
        · exact (Sink.flushes_flushed _).trans (congrArg (· + 1) hs.flushes)
      | error fault =>
        rw [hresult] at hfree hlimited
        rw [execute_eq_error hfree, execute_eq_error hlimited]
        exact ⟨rfl, rfl, hs.flushes, rfl⟩
    · rw [htext] at hlt hascii ⊢
      obtain ⟨call, hcall, t, hreplayed, hcut⟩ := hfull (not_fits_of_lt hlimit hlt)
      rw [hreplayed] at hlimited
      obtain ⟨hresult, hbytes, hflushes, hends⟩ := execute_of_cutTo hlimited hcut hlimit hascii
      refine ⟨hresult, hbytes, hflushes, ?_⟩
      -- the recording of the whole text goes at least as far as any of its calls
      rw [hends, hsource]
      exact hplaces call hcall

/-- Whatever the limit is and whether a flush works, a limited sink makes no difference but for its
limit. If the output is within it, the sink gets all of the output, and the work ends as it does
without a limit, but for a flush that fails: one is tried exactly where the work ends well. If the
output is longer, the sink holds as many of its bytes as there is room for, the work ends there by
the fault of the full sink, whatever comes later in the text, no flush is tried, and no more
characters are requested. -/
theorem output_truncated (source : Source) (limit : Option Nat) (flushFails : Bool) :
    (run source { room := limit, flushFails }).Truncated limit flushFails (run source) ∧
      (compile source { room := limit, flushFails }).Truncated limit flushFails
        (compile source) :=
  ⟨execute_truncated Evaluation.composed {} source (ascii_run source),
    execute_truncated Listing.composed 0 source (ascii_compile source)⟩

example : (run (.ofText "a=12\n!a\n?") { room := some 1 }).result =
    .error (.internal "sink full") := by cbv

end OnePass
