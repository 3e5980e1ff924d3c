import OnePass.Proofs.Composition
import OnePass.Proofs.Lines
import OnePass.Proofs.Sessions
import OnePass.Proofs.Times

/-!
# Lines typed one by one

A program that is typed line by line comes to the same as one that is read as a text
(`program_lines`). A statement is on one line, and it is done before the next line is asked for. So
when a line is asked for, the lines before it have been worked through to the last of their line
feeds, and what was written by then is what they produce on their own (`textBefore_request`); and
where the program comes to its end, the last line asked for is the one with the `;`, or with the
statement at fault (`asked_of_ok`, `asked_of_error`). All this is what a session comes to
(`sessions_interleave`).
-/

namespace OnePass

variable {μ σ α : Type}

/-! ## Lines are no matter -/

section

variable {m : Semantics (Writing μ) α}

/-- The lines and their text begin at the same place with the same characters. -/
theorem Cursor.Shifted.start_lines (lines : List String) :
    (Cursor.start (.ofLines lines)).Shifted 0 (.start (.ofText (joined lines))) := by
  have hfirst : (Cursor.first (.ofLines lines)).Shifted 0 (.first (.ofText (joined lines))) := by
    refine ⟨?_, rfl, ?_⟩
    · rw [Cursor.unread_first, Cursor.unread_first, toList_ofLines, Source.toList_ofText]
    · rw [Cursor.requests_first, Cursor.requests_first]
      rfl
  exact hfirst.skipBlanks

/-- Ends at places that are alike, as results. -/
theorem exists_finished {S : σ → σ → Prop}
    {r r' : EStateM.Result Fault (Progress σ) Unit}
    (h : Grammar.EndShifted S (fun _ => S) 0 r r') :
    ∃ result c c' s s', S s s' ∧ r = finished result c s ∧ r' = finished result c' s' := by
  cases h with
  | @ok _ c c' hc s s' hs => exact ⟨.ok (), c, c', s, s', hs, rfl, rfl⟩
  | @missing what c c' hc s s' hs =>
    exact ⟨.error (c.missing what), c, c', s, s', hs, rfl, rfl⟩
  | @failed fault c c' hc s s' hs => exact ⟨.error fault, c, c', s, s', hs, rfl, rfl⟩

/-- A program comes to the same whether it is typed line by line or read as one text. -/
theorem program_lines (hm : ∀ step, Composed (m.perform step)) (lines : List String)
    (memory : μ) :
    ∃ result c c' t t', t.Alike t' ∧
      Grammar.program (Writing.clocked m) (.start (.ofLines lines) ⟨memory, {}⟩) =
        finished result c t ∧
      Grammar.program m.timeless (.start (.ofText (joined lines)) ⟨memory, {}⟩) =
        finished result c' t' := by
  have hstart : Writing.Alike (⟨memory, {}⟩ : Writing μ) ⟨memory, {}⟩ := .refl (.start memory)
  have hc := Cursor.Shifted.start_lines lines
  obtain ⟨n, hn, -, halike⟩ := Grammar.simulated_program (clocked_simulates hm)
    (.start (.ofLines lines)) ⟨memory, {}⟩
  obtain ⟨result, c, c', s, s', hs, hlines, htext⟩ :=
    exists_finished ((halike _ _ (.of_unread n hc.unread) hstart).shifted hc hn)
  -- the two sinks differ in their clocks, and a clock changes nothing else
  obtain ⟨result', c'', t, t', ht, htimed, huntimed⟩ :=
    program_untimed hm (.ofText (joined lines)) hstart
  have hsame := htext.symm.trans htimed
  obtain ⟨rfl, -⟩ := finished_inj hsame
  have hends := congrArg Action.ended hsame
  rw [ended_finished, ended_finished] at hends
  obtain ⟨-, rfl⟩ := Progress.mk.inj hends
  exact ⟨result, c, c'', s, t', hs.trans ht, hlines, huntimed⟩

/-! ## Before a line is asked for -/

/-- Nothing is written before the first line has been asked for. -/
theorem textBefore_first (hm : ∀ step, Composed (m.perform step)) (memory : μ)
    (lines : List String) :
    (Action.ended (Grammar.program (Writing.clocked m)
      (.start (.ofLines lines) ⟨memory, {}⟩))).state.sink.textBefore 1 = "" := by
  obtain ⟨late, hlate, -, hlater⟩ := (Grammar.leads_program (added_leads hm)
    (.start (.ofLines lines) ⟨memory, {}⟩) (.start memory)).log
  have hfirst : 0 < (Cursor.start (.ofLines lines)).source.asked := by
    obtain ⟨w, -, hreads⟩ := reads_skipBlanks (.first (.ofLines lines))
    rw [Cursor.start_eq]
    exact Nat.lt_of_lt_of_le (lt_asked (Nat.zero_le _)) hreads.asked_le
  refine Sink.textBefore_append hlate fun entry hentry => ?_
  exact Nat.lt_of_lt_of_le hfirst (hlater entry hentry).1

/-- While the first lines are read, no line behind them is asked for, and at their end the next one
is, or the end is reported. The blanks `w` are in front of what is read. -/
theorem asked_skip_start {lines : List String} {number : Nat} (hle : number ≤ lines.length)
    {w u : List Char} (hcut : (joined (lines.take number)).toList = w ++ u)
    (hstart : Cursor.start (.ofLines lines) = (Cursor.first (.ofLines lines)).skip w.length) :
    (∀ n < u.length, ((Cursor.start (.ofLines lines)).skip n).source.asked ≤ number) ∧
      number < ((Cursor.start (.ofLines lines)).skip u.length).source.asked := by
  -- places are counted from the first character, blanks included
  have hskip (n : Nat) : (Cursor.start (.ofLines lines)).skip n =
      (Cursor.first (.ofLines lines)).skip (w.length + n) := by
    rw [hstart, Cursor.skip_add]
  have hlength : (joined (lines.take number)).toList.length = w.length + u.length := by
    rw [hcut, List.length_append]
  refine ⟨fun n hn => ?_, ?_⟩
  · rw [hskip]
    exact asked_le_of_lt (by omega)
  · rw [hskip, ← hlength]
    exact lt_asked hle

/-- At the end of a text a program that is to go on fails without having done anything. -/
theorem state_goOn_of_end {m : Clocked σ α} {c : Cursor} (h : c.unread = []) (s : σ) :
    (Action.ended (Grammar.goOn m ⟨c.skipBlanks, s⟩)).state = s := by
  have hend : c.skipBlanks.unread = [] := by
    rw [Cursor.skipBlanks, Cursor.unread_takeWhile, h, List.dropWhile_nil]
  have hat : c.skipBlanks.isAt ';' = false := by
    rw [Cursor.isAt, Cursor.look_eq_head?, hend]
    rfl
  rw [Grammar.goOn_eq_program hat, Grammar.program_of_end hend]
  rfl

/-- Where a line was asked for, all that was written before is what the lines before it produce. -/
theorem textBefore_request (hm : ∀ step, Composed (m.perform step)) {memory : μ}
    {lines : List String} {result : Except Fault Unit} {c : Cursor} {s : Writing μ}
    (h : Grammar.program (Writing.clocked m) (.start (.ofLines lines) ⟨memory, {}⟩) =
      finished result c s)
    {number : Nat} (hle : number ≤ lines.length) (hasked : number < c.source.asked) :
    s.sink.textBefore (number + 1) =
      (execute m.timeless memory (.ofText (joined (lines.take number))) {}).sink.text := by
  rw [text_execute_untimed hm]
  have hstate : s = (Action.ended (Grammar.program (Writing.clocked m)
      (.start (.ofLines lines) ⟨memory, {}⟩))).state := by
    rw [h, ended_finished]
  have hplace : c = (Action.ended (Grammar.program (Writing.clocked m)
      (.start (.ofLines lines) ⟨memory, {}⟩))).cursor := by
    rw [h, ended_finished]
  cases number with
  | zero =>
    have hend : (Cursor.start (.ofText (joined []))).unread = [] := by
      rw [Cursor.start_eq, Cursor.skipBlanks, Cursor.unread_takeWhile, Cursor.unread_first]
      rfl
    rw [List.take_zero, Grammar.program_of_end hend, hstate]
    exact textBefore_first hm memory lines
  | succ k =>
    obtain ⟨w, u, hcut, hu, hstart⟩ := Grammar.exists_start_append (lines_joined_take hle)
    obtain ⟨hfirst, hunread⟩ := hstart (.ofLines lines) _ (by
      rw [toList_ofLines]
      exact toList_joined_take_append_drop lines (k + 1))
    obtain ⟨-, hunread'⟩ := hstart (.ofText (joined (lines.take (k + 1)))) [] (by
      rw [Source.toList_ofText, List.append_nil])
    obtain ⟨hbefore, hbehind⟩ := asked_skip_start hle hcut hfirst
    cases Grammar.program_seam (clocked_simulates hm) hu hunread hunread'
        (.refl (.start memory)) with
    | before n hn hend =>
      -- the next line was not asked for
      rw [hplace, Progress.start, hend.cursor] at hasked
      exact absurd (hbefore n hn) (Nat.not_le_of_lt hasked)
    | @through n hn t t' ht hled hgo hgo' =>
      obtain ⟨early, hearly, -, hearlier⟩ := (hled _ (added_leads hm) (.start memory)).log
      obtain ⟨late, hlate, -, hlater⟩ := (Grammar.leads_goOn (added_leads hm)
        ⟨((Cursor.start (.ofLines lines)).skip u.length).skipBlanks, t⟩ ht.free).log
      rw [Progress.start, hgo] at hstate
      rw [← hstate] at hlate
      -- the text of the first lines ends at the seam, so nothing is written there
      rw [Progress.start, hgo', state_goOn_of_end (Cursor.unread_skip_append hunread')]
      have hrest : s.sink.textBefore (k + 1 + 1) = t.sink.textBefore (k + 1 + 1) := by
        refine Sink.textBefore_append hlate fun entry hentry => ?_
        obtain ⟨v, -, hreads⟩ := reads_skipBlanks ((Cursor.start (.ofLines lines)).skip u.length)
        exact hbehind.trans_le (hreads.asked_le.trans (hlater entry hentry).1)
      rw [hrest]
      refine (Sink.textBefore_eq_text fun entry hentry => ?_).trans ht.text.symm
      rw [show t.sink.log = early ++ [] from hearly, List.append_nil] at hentry
      exact Nat.lt_succ_of_le ((hearlier entry hentry).2.trans (hbefore n hn))

/-! ## The last line asked for -/

theorem length_le_of_eq_append {α : Type} {l xs ys : List α} (h : l = xs ++ ys) :
    xs.length ≤ l.length := (show xs <+: l from ⟨ys, h.symm⟩).length_le

/-- A cursor that read on from the start of the lines. -/
theorem exists_skip_of_reads {lines : List String} {c : Cursor} {t : List Char}
    (h : (Cursor.start (.ofLines lines)).Reads t c) :
    ∃ w, Blanks w ∧ (joined lines).toList = (w ++ t) ++ c.unread ∧
      c = (Cursor.first (.ofLines lines)).skip (w ++ t).length := by
  obtain ⟨w, hw, hblanks⟩ := reads_skipBlanks (.first (.ofLines lines))
  have hreads := hblanks.trans h
  refine ⟨w, hw, ?_, hreads.eq_skip⟩
  rw [← hreads.unread, Cursor.unread_first, toList_ofLines]

/-- Where a program ended well, the line asked for last is the first one that has a `;`. -/
theorem asked_of_ok {m : Clocked σ α} {lines : List String} {state : σ} {q : Progress σ}
    (h : Grammar.program m (.start (.ofLines lines) state) = .ok () q) :
    ∃ number line, lines[number]? = some line ∧ ';' ∈ line.toList ∧
      (∀ earlier ∈ lines.take number, ';' ∉ earlier.toList) ∧
      q.cursor.source.asked = number + 1 := by
  obtain ⟨-, -, -, hat⟩ := Grammar.program_eq_ok_iff.1 h
  have hbegins := Grammar.begins_program m (.start (.ofLines lines) state)
  rw [h] at hbegins
  cases hbegins with
  | @ok t _ _ ht hreads =>
    obtain ⟨statements, hspelled⟩ := ht
    obtain ⟨w, hw, htext, hplace⟩ := exists_skip_of_reads hreads
    rw [Cursor.isAt, decide_eq_true_eq] at hat
    rw [Cursor.unread_eq_cons hat] at htext
    obtain ⟨number, hholds, hasked⟩ := asked_skip (length_le_of_eq_append htext)
    -- neither blanks nor statements have a sentinel in them, so this one is the first
    have hnot : ';' ∉ w ++ t := by
      rw [List.mem_append]
      rintro (hmem | hmem)
      · exact absurd (hw _ hmem) (by decide)
      · exact hspelled.not_mem hmem
    obtain ⟨line, hline, hmem, hearlier⟩ := hholds.exists_line htext (by decide) hnot
    exact ⟨number, line, hline, hmem, hearlier, hplace ▸ hasked⟩

/-- Where a program failed, the line asked for last is the one that holds the beginning of the
statement at fault. -/
theorem asked_of_error {m : Clocked σ α} {lines : List String} {state : σ} {fault : Fault}
    {q : Progress σ} (h : Grammar.program m (.start (.ofLines lines) state) = .error fault q) :
    ∃ p number, Grammar.Rounds m (.start (.ofLines lines) state) p ∧
      Grammar.statement m p = .error fault q ∧ Holds lines number p.cursor.offset ∧
      q.cursor.source.asked = number + 1 := by
  obtain ⟨p, hrounds, hstatement⟩ := Grammar.program_eq_error_iff.1 h
  obtain ⟨t, hreads⟩ := hrounds.led _ (Grammar.reads_leads m)
  obtain ⟨w, -, htext, hplace⟩ := exists_skip_of_reads hreads
  obtain ⟨v, hv, hreads'⟩ := Grammar.reads_statement (m := m) p
  rw [hstatement] at hreads'
  have htext' : (joined lines).toList.drop (w ++ t).length = v ++ q.cursor.unread := by
    rw [htext, List.drop_left]
    exact hreads'.unread
  have hoffset : p.cursor.offset = (w ++ t).length := by
    rw [hplace, (Cursor.offset_skip ?_).1]
    · exact Nat.zero_add _
    · rw [Cursor.unread_first, toList_ofLines]
      exact length_le_of_eq_append htext
  have hend : q.cursor = (Cursor.first (.ofLines lines)).skip ((w ++ t).length + v.length) := by
    rw [Cursor.skip_add, ← hplace]
    exact hreads'.eq_skip
  have hle : (w ++ t).length + v.length ≤ (joined lines).toList.length := by
    have hbefore := length_le_of_eq_append htext
    have hlength := length_le_of_eq_append htext'
    rw [List.length_drop] at hlength
    omega
  obtain ⟨number, hholds, -⟩ := asked_skip (length_le_of_eq_append htext)
  obtain ⟨k, hholds', hasked⟩ := asked_skip hle
  refine ⟨p, number, hrounds, hstatement, hoffset ▸ hholds, ?_⟩
  -- a statement reads within its line, so no further line was asked for
  rw [hend, hasked, hholds.eq_of_reads hholds' htext' hv]

/-! ## Sessions -/

/-- The sink at the end of the work: where the program has ended well, it is flushed at that
time. -/
def Sink.closed (sink : Sink) (result : Except Fault Unit) (time : Nat) : Sink :=
  match result with
  | .ok () => note { sink with clock := time } .flush
  | .error _ => sink

namespace Sink

theorem text_closed (sink : Sink) (result : Except Fault Unit) (time : Nat) :
    (sink.closed result time).text = sink.text := by
  cases result with
  | ok _ => exact text_flushed _
  | error fault => rfl

/-- At the end nothing is done later than that. -/
theorem timed_closed {sink : Sink} {time : Nat} (htimed : sink.Timed)
    (hle : ∀ entry ∈ sink.log, entry.1 ≤ time) (result : Except Fault Unit) :
    (sink.closed result time).Timed ∧ ∀ entry ∈ (sink.closed result time).log, entry.1 ≤ time := by
  cases result with
  | ok _ => exact ⟨List.pairwise_cons.2 ⟨hle, htimed⟩, List.forall_mem_cons.2 ⟨le_rfl, hle⟩⟩
  | error fault => exact ⟨htimed, hle⟩

/-- What was written before the end is no matter of the flush. -/
theorem textBefore_closed (sink : Sink) (result : Except Fault Unit) {time earlier : Nat}
    (h : earlier ≤ time) :
    (sink.closed result time).textBefore earlier = sink.textBefore earlier := by
  cases result with
  | ok u =>
    have hlog : (sink.closed (.ok u) time).log = [(time, .flush)] ++ sink.log := rfl
    exact textBefore_append hlog (List.forall_mem_singleton.2 h)
  | error fault => rfl

end Sink

/-- The report of a session whose program came to an end. -/
theorem execute_clocked {memory : μ} {source : Source} {result : Except Fault Unit} {c : Cursor}
    {s : Writing μ}
    (h : Grammar.program (Writing.clocked m) (.start source ⟨memory, {}⟩) = finished result c s)
    (hs : s.Free) :
    execute (Writing.clocked m) memory source {} =
      ⟨result.map fun _ => s.memory, s.sink.closed result c.source.asked, c.source⟩ := by
  cases result with
  | ok _ =>
    refine (execute_of_ok h).trans ?_
    show (⟨if s.sink.flushFails then _ else _, _, _⟩ : Report μ) = _
    rw [hs.unlimited.flushFails]
    rfl
  | error fault => exact execute_eq_error h

section

variable {memory : μ} {lines : List String} {result : Except Fault Unit} {c : Cursor}
  {s : Writing μ}

/-- In a session all is written in the order of the times, and nothing after the end. -/
theorem timed_of_finished (hm : ∀ step, Composed (m.perform step))
    (h : Grammar.program (Writing.clocked m) (.start (.ofLines lines) ⟨memory, {}⟩) =
      finished result c s) :
    s.sink.Timed ∧ ∀ entry ∈ s.sink.log, entry.1 ≤ c.source.asked := by
  have hadded := Grammar.leads_program (added_leads hm) (.start (.ofLines lines) ⟨memory, {}⟩)
    (.start memory)
  rw [h, ended_finished] at hadded
  obtain ⟨late, hlate, hordered, htimes⟩ := hadded.log
  have hlog : s.sink.log = late := hlate.trans (List.append_nil _)
  rw [Sink.Timed, hlog]
  exact ⟨hordered, fun entry hentry => (htimes entry hentry).2⟩

/-- Each line is asked for once at most, and so is the end. -/
theorem asked_le_of_finished
    (h : Grammar.program (Writing.clocked m) (.start (.ofLines lines) ⟨memory, {}⟩) =
      finished result c s) : c.source.asked ≤ lines.length + 1 := by
  obtain ⟨t, hreads⟩ := Grammar.leads_program (Grammar.reads_leads (Writing.clocked m))
    (.start (.ofLines lines) ⟨memory, {}⟩)
  rw [h, ended_finished] at hreads
  obtain ⟨w, -, htext, hplace⟩ := exists_skip_of_reads hreads
  obtain ⟨number, hholds, hasked⟩ := asked_skip (length_le_of_eq_append htext)
  rw [show c = _ from hplace, hasked]
  exact Nat.succ_le_succ hholds.le

end

/-- Requests that are the same come behind the same lines. -/
theorem take_eq_of_request_eq {lines : List String} {number k : Nat}
    (h : Session.request lines.length number = Session.request lines.length k) :
    lines.take number = lines.take k := by
  unfold Session.request at h
  split at h
  · split at h
    · cases h
      rfl
    · cases h
  · split at h
    · cases h
    · rw [List.take_of_length_le (by omega), List.take_of_length_le (by omega)]

/-- What comes of a session, beside what comes of texts that are at hand as a whole. -/
structure Session.Interleaves (m : Clocked (Writing μ) α) (memory : μ) (lines : List String)
    (report : Report μ) (direct : List String → Report μ) : Prop where
  result : report.result = (direct lines).result
  /-- All that is shown is the output. -/
  output : shown (events lines.length report) = (direct lines).sink.text
  /-- The lines are asked for in order, each of them once at most, and the end at most once. -/
  requests : (events lines.length report).filter Event.isRequest =
    (List.range report.source.asked).map (request lines.length)
  asked_le : report.source.asked ≤ lines.length + 1
  /-- What is shown before a line is asked for, or before the end is reported, is all that the lines
  before it produce. -/
  before : ∀ number, request lines.length number ∈ events lines.length report →
    shown ((events lines.length report).takeWhile (· ≠ request lines.length number)) =
      (direct (lines.take number)).sink.text
  /-- The last line asked for is the one that has the `;` which ends the program. -/
  accepted : ∀ memory', report.result = .ok memory' →
    ∃ number line, lines[number]? = some line ∧ ';' ∈ line.toList ∧
      (∀ earlier ∈ lines.take number, ';' ∉ earlier.toList) ∧ report.source.asked = number + 1
  /-- The last line asked for is the one that holds the beginning of the statement at fault. Where
  there is none, the end was reported, and nothing was asked for after that. -/
  failed : ∀ fault, report.result = .error fault →
    ∃ p q number, Grammar.Rounds m (.start (.ofLines lines) ⟨memory, {}⟩) p ∧
      Grammar.statement m p = .error fault q ∧ Holds lines number p.cursor.offset ∧
      report.source.asked = number + 1
  /-- A flush is the last event. There is one where the program has ended well, and only there. -/
  flush : ∃ earlier, Event.flush ∉ earlier ∧
    events lines.length report = earlier ++
      match report.result with
      | .ok _ => [.flush]
      | .error _ => []

/-- For any composed steps, a session interleaves. The lines are read by the parser that reads their
text (`program_lines`), and the rest follows from the two sinks. -/
theorem execute_interleaves (hm : ∀ step, Composed (m.perform step)) (memory : μ)
    (lines : List String) :
    Session.Interleaves (Writing.clocked m) memory lines
      (execute (Writing.clocked m) memory (.ofLines lines) {})
      fun lines => execute m.timeless memory (.ofText (joined lines)) {} := by
  obtain ⟨result, c, c', s, s', hs, hlines, htext⟩ := program_lines hm lines memory
  obtain ⟨hresult, houtput, -⟩ := execute_of_finished htext hs.free'.unlimited
  obtain ⟨hlog, hentries⟩ := timed_of_finished hm hlines
  obtain ⟨htimed, hle⟩ := Sink.timed_closed hlog hentries result
  have hasked := asked_le_of_finished hlines
  rw [execute_clocked hlines hs.free]
  refine ⟨?_, ?_, Session.filter_events _ _, hasked, ?_, ?_, ?_, ?_⟩
  · rw [hresult, hs.memory]
  · rw [Session.shown_events htimed hle, Sink.text_closed, houtput, hs.text]
  · intro number hmem
    have hrequest := List.mem_filter.2 ⟨hmem, Session.isRequest_request _ _⟩
    rw [Session.filter_events] at hrequest
    obtain ⟨time, htime, hsame⟩ := List.mem_map.1 hrequest
    have htime : time < c.source.asked := List.mem_range.1 htime
    -- every request was for a line, or for the end that comes behind them
    have hbefore : time ≤ lines.length := by omega
    rw [← hsame, ← take_eq_of_request_eq hsame, Session.shown_before htimed htime hbefore,
      Sink.textBefore_closed _ _ htime, textBefore_request hm hlines hbefore htime]
  · intro memory' hok
    cases result with
    | error fault => cases hok
    | ok _ => exact asked_of_ok hlines
  · intro fault herror
    cases result with
    | ok _ => cases herror
    | error fault' =>
      cases herror
      obtain ⟨p, number, hrounds, hstatement, hholds, hlast⟩ := asked_of_error hlines
      exact ⟨p, _, number, hrounds, hstatement, hholds, hlast⟩
  · refine ⟨Session.events lines.length ⟨result.map fun _ => s.memory, s.sink, c.source⟩,
      Session.flush_not_mem_events hs.free.flushes _, ?_⟩
    cases result with
    | ok _ => exact Session.events_flushed _ _ rfl
    | error fault => exact (List.append_nil _).symm

end

/-- Whatever lines are typed, a session comes to what comes of their text, and shows all that this
text puts out. The lines are asked for one after another, and whatever the lines so far produce is
shown before the next one is asked for, or the end reported. No line is asked for behind the one
with the `;` that ends the program, or the one with the statement at fault; and a flush comes
last. -/
theorem sessions_interleave (lines : List String) :
    Session.Interleaves (Writing.clocked Evaluation.semantics) {} lines (Session.run lines)
        (fun lines => run (.ofText (joined lines))) ∧
      Session.Interleaves (Writing.clocked Listing.semantics) 0 lines (Session.compile lines)
        (fun lines => compile (.ofText (joined lines))) :=
  ⟨execute_interleaves Evaluation.composed {} lines,
    execute_interleaves Listing.composed 0 lines⟩

example : Session.events 3 (Session.run ["a=6*7", "!a;", "!b"]) =
    [.line 0, .line 1, .write "42\n", .flush] := by cbv

end OnePass
