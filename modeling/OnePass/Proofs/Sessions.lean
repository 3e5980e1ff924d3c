import OnePass.Proofs.Sinks
import OnePass.Session

/-!
# The events of a session

All that is done to a sink has its time, which is how many lines had been asked for by then. So
where the times go up, the events of a session are what was done, in the order of the log, with the
requests in between.

* **`shown_before`** — what is shown before a request is what was written up to its time.
* **`shown_events`** — all that is shown is all that was written.
* **`events_flushed`** — a flush is the last event if it was done last, when no more lines were
  asked for.
-/

namespace OnePass

namespace Session

/-! ## What is seen of events -/

def Event.isRequest : Event → Bool
  | .line _ | .endOfInput => true
  | .write _ | .flush => false

/-- The text that an event shows. -/
def Event.text : Event → String
  | .write text => text
  | .line _ | .endOfInput | .flush => ""

/-- The text that events show, one after another. -/
def shown (events : List Event) : String := String.join (events.map Event.text)

/-- What is shown of events one behind another is shown one behind another. -/
theorem shown_append (xs ys : List Event) : shown (xs ++ ys) = shown xs ++ shown ys := by
  rw [shown, List.map_append, String.join_append]
  rfl

/-- A request is a request, whether there is a line left or not. -/
theorem isRequest_request (lines number : Nat) : (request lines number).isRequest = true := by
  unfold request
  split <;> rfl

theorem shown_request (lines number : Nat) : shown [request lines number] = "" := by
  unfold request
  split <;> rfl

theorem shown_cons (event : Event) (events : List Event) :
    shown (event :: events) = event.text ++ shown events := by
  rw [← List.singleton_append, shown_append]
  exact congrArg (· ++ shown events) String.empty_append

/-! ## What was done at one time -/

/-- Whether a text is an event of its own or a part of one, it is shown. -/
theorem shown_record (output : Output) (events : List Event) :
    shown (Event.record output events) = output.text ++ shown events := by
  unfold Event.record
  split
  · exact shown_cons .flush events
  · rw [shown_cons, shown_cons]
    exact String.append_assoc
  · split
    · -- no text is no event
      next hempty =>
      rw [hempty]
      exact String.empty_append.symm
    · exact shown_cons (.write _) _

theorem filter_isRequest_record (output : Output) (events : List Event) :
    (Event.record output events).filter Event.isRequest = events.filter Event.isRequest := by
  unfold Event.record
  split
  · rfl
  · rfl
  · split <;> rfl

/-- A flush is recorded for a flush only. -/
theorem flush_mem_record {output : Output} {events : List Event}
    (h : Event.flush ∈ Event.record output events) :
    output.isFlush = true ∨ Event.flush ∈ events := by
  unfold Event.record at h
  split at h
  · exact .inl rfl
  · simpa [Output.isFlush] using h
  · split at h
    · exact .inr h
    · simpa [Output.isFlush] using h

/-- No text goes across a flush. -/
theorem record_append_flush (output : Output) (events more : List Event) :
    Event.record output (events ++ .flush :: more) =
      Event.record output events ++ .flush :: more := by
  cases output with
  | flush => rfl
  | piece text =>
    -- a text goes together with the text in front of which it is recorded, and with nothing else
    rcases events with - | ⟨event, events⟩
    · simp only [Event.record, List.nil_append]
      split <;> rfl
    · cases event <;> simp only [Event.record, List.cons_append] <;> split <;> rfl

/-- A flush that was done last is the last event, also behind a text. -/
theorem foldr_record_flush (done : List Output) :
    (done ++ [Output.flush]).foldr Event.record [] = done.foldr Event.record [] ++ [.flush] := by
  induction done with
  | nil => rfl
  | cons output done ih =>
    rw [List.cons_append, List.foldr_cons, List.foldr_cons, ih, record_append_flush]

/-- What is shown of the output at a time is what was written then. -/
theorem shown_outputs (sink : Sink) (time : Nat) :
    shown (outputs sink time) = String.join ((sink.outputsAt time).map Output.text) := by
  unfold outputs
  induction sink.outputsAt time with
  | nil => rfl
  | cons output done ih =>
    rw [List.foldr_cons, shown_record, ih, List.map_cons, String.join_cons]

theorem filter_isRequest_outputs (sink : Sink) (time : Nat) :
    (outputs sink time).filter Event.isRequest = [] := by
  unfold outputs
  induction sink.outputsAt time with
  | nil => rfl
  | cons output done ih => rw [List.foldr_cons, filter_isRequest_record, ih]

/-- Where no flush is in the log, none is seen. -/
theorem flush_not_mem_outputs {sink : Sink} (h : sink.flushes = 0) (time : Nat) :
    Event.flush ∉ outputs sink time := by
  have hnone : ∀ output ∈ sink.outputsAt time, output.isFlush = false := by
    refine List.forall_mem_map.2 fun entry hentry => ?_
    exact Sink.flushes_eq_zero_iff.1 h entry (List.mem_reverse.1 (List.mem_filter.1 hentry).1)
  unfold outputs
  generalize sink.outputsAt time = done at hnone
  induction done with
  | nil => exact List.not_mem_nil
  | cons output done ih =>
    obtain ⟨hfirst, hrest⟩ := List.forall_mem_cons.1 hnone
    intro hmem
    -- a flush was recorded now, or it was there before
    rcases flush_mem_record hmem with hflush | hmem
    · rw [hfirst] at hflush
      cases hflush
    · exact ih hrest hmem

/-! ## Requests -/

/-- A request is made once only: those before the end are for lines of their own. -/
theorem request_ne {lines number earlier : Nat} (h : earlier < number) (hle : number ≤ lines) :
    request lines earlier ≠ request lines number := by
  unfold request
  rw [if_pos (Nat.lt_of_lt_of_le h hle)]
  split
  · rintro ⟨⟩
    exact Nat.lt_irrefl _ h
  · exact fun heq => nomatch heq

/-! ## Times -/

end Session

/-- All was done in the order of its times. -/
def Sink.Timed (sink : Sink) : Prop :=
  sink.log.Pairwise fun entry earlier => earlier.1 ≤ entry.1

/-- What was written before a time. -/
def Sink.textBefore (sink : Sink) (time : Nat) : String :=
  String.join ((sink.log.reverse.filter (·.1 < time)).map (·.2.text))

/-- What was done up to a time was done before it or at it, and in this order. -/
theorem filter_lt_succ {entries : List (Nat × Output)}
    (h : entries.Pairwise fun entry later => entry.1 ≤ later.1) (time : Nat) :
    entries.filter (·.1 < time + 1) =
      entries.filter (·.1 < time) ++ entries.filter (·.1 = time) := by
  induction h with
  | nil => rfl
  | @cons entry entries hle hentries ih =>
    rcases Nat.lt_trichotomy entry.1 time with hlt | heq | hgt
    · rw [List.filter_cons_of_pos (by simp; omega), List.filter_cons_of_pos (by simpa using hlt),
        List.filter_cons_of_neg (by simp; omega), ih, List.cons_append]
    · -- nothing later was done before this
      have hnone : entries.filter (·.1 < time) = [] := by
        rw [List.filter_eq_nil_iff]
        intro later hlater
        have := hle later hlater
        simp only [decide_eq_true_eq]
        omega
      rw [List.filter_cons_of_pos (by simp; omega), List.filter_cons_of_neg (by simp; omega),
        List.filter_cons_of_pos (by simpa using heq), ih, hnone]
      rfl
    · rw [List.filter_cons_of_neg (by simp; omega), List.filter_cons_of_neg (by simp; omega),
        List.filter_cons_of_neg (by simp; omega), ih]

namespace Sink

theorem textBefore_zero (sink : Sink) : sink.textBefore 0 = "" := by
  rw [textBefore, List.filter_eq_nil_iff.2 (by simp)]
  rfl

/-- By the next time, what was written at this one has come to it. -/
theorem textBefore_succ {sink : Sink} (h : sink.Timed) (time : Nat) :
    sink.textBefore (time + 1) =
      sink.textBefore time ++ String.join ((sink.outputsAt time).map Output.text) := by
  rw [textBefore, filter_lt_succ (List.pairwise_reverse.2 h), List.map_append, String.join_append,
    outputsAt, List.map_map]
  rfl

/-- What was written before the time is all of it, if nothing was done later. -/
theorem textBefore_eq_text {sink : Sink} {time : Nat} (h : ∀ entry ∈ sink.log, entry.1 < time) :
    sink.textBefore time = sink.text := by
  rw [textBefore, List.filter_eq_self.2]
  · rfl
  · exact fun entry hentry => decide_eq_true (h entry (List.mem_reverse.1 hentry))

/-- What was done later is no matter. -/
theorem textBefore_append {sink early : Sink} {late : List (Nat × Output)} {time : Nat}
    (h : sink.log = late ++ early.log) (hlate : ∀ entry ∈ late, time ≤ entry.1) :
    sink.textBefore time = early.textBefore time := by
  have hnone : late.reverse.filter (·.1 < time) = [] := by
    rw [List.filter_eq_nil_iff]
    intro entry hentry
    have := hlate entry (List.mem_reverse.1 hentry)
    simp only [decide_eq_true_eq]
    omega
  rw [textBefore, textBefore, h, List.reverse_append, List.filter_append, hnone, List.append_nil]

/-- What is done now is the last at its time. -/
theorem outputsAt_note (sink : Sink) (output : Output) :
    (sink.note output).outputsAt sink.clock = sink.outputsAt sink.clock ++ [output] := by
  rw [outputsAt, outputsAt, note, List.reverse_cons, List.filter_append, List.map_append,
    List.filter_cons_of_pos (by simp)]
  rfl

/-- At other times there is no difference. -/
theorem outputsAt_note_of_ne {sink : Sink} {time : Nat} (h : sink.clock ≠ time) (output : Output) :
    (sink.note output).outputsAt time = sink.outputsAt time := by
  rw [outputsAt, outputsAt, note, List.reverse_cons, List.filter_append, List.map_append,
    List.filter_cons_of_neg (by simpa using h)]
  exact List.append_nil _

end Sink

/-! ## What is shown -/

namespace Session

variable {μ : Type} {lines : Nat} {report : Report μ}

/-- What was written by each time, and the request that was made then. -/
def exchanges (lines : Nat) (sink : Sink) (times : List Nat) : List Event :=
  times.flatMap fun time => outputs sink time ++ [request lines time]

/-- What is shown in exchanges, up to a time, is what was written before it. -/
theorem shown_exchanges {sink : Sink} (h : sink.Timed) (lines time : Nat) :
    shown (exchanges lines sink (List.range time)) = sink.textBefore time := by
  induction time with
  | zero => exact sink.textBefore_zero.symm
  | succ time ih =>
    rw [List.range_succ, exchanges, List.flatMap_append, List.flatMap_singleton, shown_append,
      shown_append, shown_request, shown_outputs, String.append_empty, Sink.textBefore_succ h, ← ih]
    rfl

/-- All that was written is shown. -/
theorem shown_events (h : report.sink.Timed)
    (hle : ∀ entry ∈ report.sink.log, entry.1 ≤ report.source.asked) :
    shown (events lines report) = report.sink.text := by
  have hexchanges := shown_exchanges h lines report.source.asked
  rw [exchanges] at hexchanges
  rw [events, shown_append, shown_outputs, hexchanges, ← Sink.textBefore_succ h]
  -- nothing was written after the last line was asked for
  exact Sink.textBefore_eq_text fun entry hentry => Nat.lt_succ_of_le (hle entry hentry)

/-- Where no flush is in the log, none is among the events. -/
theorem flush_not_mem_events (h : report.sink.flushes = 0) (lines : Nat) :
    Event.flush ∉ events lines report := by
  have hrequest (number : Nat) : Event.flush ≠ request lines number := by
    unfold request
    split <;> simp
  rw [events, List.mem_append, List.mem_flatMap]
  rintro (⟨time, -, hmem⟩ | hmem)
  · rcases List.mem_append.1 hmem with hmem | hmem
    · exact flush_not_mem_outputs h time hmem
    · exact hrequest time (List.mem_singleton.1 hmem)
  · exact flush_not_mem_outputs h _ hmem

/-- A flush that is done last, when no more lines were asked for, is the last event. -/
theorem events_flushed (lines : Nat) (result : Except Fault μ) {sink : Sink} {source : Source}
    (h : sink.clock = source.asked) :
    events lines ⟨result, sink.note .flush, source⟩ =
      events lines ⟨result, sink, source⟩ ++ [.flush] := by
  -- before the last time the flush is not seen
  have hearlier : (List.range source.asked).flatMap (fun time =>
      outputs (sink.note .flush) time ++ [request lines time]) =
      (List.range source.asked).flatMap fun time => outputs sink time ++ [request lines time] := by
    rw [List.flatMap_def, List.flatMap_def]
    congr 1
    refine List.map_congr_left fun time htime => ?_
    rw [outputs, Sink.outputsAt_note_of_ne (h ▸ Nat.ne_of_gt (List.mem_range.1 htime)), outputs]
  have hlast : outputs (sink.note .flush) source.asked = outputs sink source.asked ++ [.flush] := by
    rw [outputs, outputs, ← h, Sink.outputsAt_note, foldr_record_flush]
  show _ ++ outputs (sink.note .flush) source.asked = _ ++ outputs sink source.asked ++ _
  rw [hearlier, hlast, List.append_assoc]

/-- The requests are made in order. -/
theorem filter_events (lines : Nat) (report : Report μ) :
    (events lines report).filter Event.isRequest =
      (List.range report.source.asked).map (request lines) := by
  rw [events, List.filter_append, filter_isRequest_outputs, List.append_nil, List.filter_flatMap]
  rw [List.map_eq_flatMap]
  congr 1
  funext time
  rw [List.filter_append, filter_isRequest_outputs, List.nil_append,
    List.filter_cons_of_pos (isRequest_request lines time), List.filter_nil]

/-- The events before a request and behind it. -/
theorem exists_events_append (lines : Nat) (report : Report μ) {number : Nat}
    (h : number < report.source.asked) :
    ∃ rest, events lines report = exchanges lines report.sink (List.range number) ++
      outputs report.sink number ++ request lines number :: rest := by
  obtain ⟨more, hmore⟩ := Nat.exists_eq_add_of_lt h
  -- the times are cut at the request: those before it, its own and those behind
  rw [show number + more + 1 = (number + 1) + more by omega] at hmore
  rw [events, hmore, List.range_add, List.range_succ, List.flatMap_append, List.flatMap_append,
    List.flatMap_singleton]
  simp only [List.append_assoc, List.singleton_append, exchanges]
  exact ⟨_, rfl⟩

/-- A request is not among the output at any time. -/
theorem request_not_mem_outputs {number time : Nat} {sink : Sink} :
    request lines number ∉ outputs sink time := by
  intro hmem
  have hfilter := List.mem_filter.2 ⟨hmem, isRequest_request lines number⟩
  rw [filter_isRequest_outputs] at hfilter
  cases hfilter

/-- What is shown before a request is what was written up to its time. -/
theorem shown_before (h : report.sink.Timed) {number : Nat} (hnumber : number < report.source.asked)
    (hle : number ≤ lines) :
    shown ((events lines report).takeWhile (· ≠ request lines number)) =
      report.sink.textBefore (number + 1) := by
  obtain ⟨rest, hevents⟩ := exists_events_append lines report hnumber
  -- no earlier event is this request: neither one of the earlier requests nor output
  have hbefore : ∀ event ∈ exchanges lines report.sink (List.range number) ++
      outputs report.sink number, decide (event ≠ request lines number) = true := by
    intro event hmem
    rw [decide_eq_true_eq]
    rintro rfl
    rcases List.mem_append.1 hmem with hmem | hmem
    · obtain ⟨time, htime, hmem⟩ := List.mem_flatMap.1 hmem
      rcases List.mem_append.1 hmem with hmem | hmem
      · exact request_not_mem_outputs hmem
      · exact request_ne (List.mem_range.1 htime) hle (List.mem_singleton.1 hmem).symm
    · exact request_not_mem_outputs hmem
  rw [hevents, List.takeWhile_append_of_pos hbefore, List.takeWhile_cons_of_neg (by simp),
    List.append_nil, shown_append, shown_exchanges h, shown_outputs,
    ← Sink.textBefore_succ h]

end Session

end OnePass
