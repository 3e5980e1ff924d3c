import OnePass.Proofs.FrontEnds
import OnePass.Proofs.Seam

/-!
# Programs one behind the other

A text of complete lines that is a program when a `;` follows it does the same when more text
follows. What comes then is read as if it were a program of its own, by a semantics that goes on
from the state the lines have left: nothing is remembered of the lines but this state. So the calls
of the two programs come one behind the other, and only the places are further on in the text
(`programs_compose`).
-/

namespace OnePass

variable {σ α : Type}

/-! ## Places further on -/

/-- The fault at a place that is so many characters further on. -/
def Fault.shifted (n : Nat) (fault : Fault) : Fault :=
  { fault with column := ⟨fault.column.first + n, fault.column.last + n⟩ }

/-- The text at hand is the same, and the second place is so many characters further on. -/
structure Cursor.Shifted (n : Nat) (c c' : Cursor) : Prop where
  unread : c'.unread = c.unread
  offset : c'.offset = c.offset + n
  requests : c'.source.requests = c.source.requests + n

namespace Cursor.Shifted

variable {n k : Nat} {c c' : Cursor}

theorem look (h : Shifted n c c') : c'.look = c.look := by
  rw [look_eq_head?, look_eq_head?, h.unread]

/-- Cursors stay apart by as much when both go on. -/
theorem skip (h : Shifted n c c') (hk : k ≤ c.unread.length) :
    Shifted n (c.skip k) (c'.skip k) := by
  have hk' : k ≤ c'.unread.length := by rwa [h.unread]
  refine ⟨?_, ?_, ?_⟩
  · rw [unread_skip, unread_skip, h.unread]
  · rw [(offset_skip hk).1, (offset_skip hk').1, h.offset]
    omega
  · rw [(offset_skip hk).2, (offset_skip hk').2, h.requests]
    omega

theorem skipBlanks (h : Shifted n c c') : Shifted n c.skipBlanks c'.skipBlanks := by
  rw [Cursor.skipBlanks, Cursor.skipBlanks, takeWhile_eq, takeWhile_eq, h.unread]
  exact h.skip (List.takeWhile_prefix isBlank).length_le

/-- A fault is on the same character, further on in the text. -/
theorem missing (h : Shifted n c c') (what : String) :
    c'.missing what = (c.missing what).shifted n := by
  rw [Cursor.missing, Cursor.missing, Cursor.column, Cursor.column, h.look, h.offset]
  cases c.look with
  | none => rfl
  | some x => simp only [Fault.shifted, Nat.add_right_comm]

/-- A text is found again behind any other one. -/
theorem first (p q : String) :
    Shifted p.length (.first (.ofText q)) ((Cursor.first (.ofText (p ++ q))).skip p.length) := by
  have hle : p.length ≤ (Cursor.first (.ofText (p ++ q))).unread.length := by
    rw [unread_first_ofText, String.toList_append, List.length_append, String.length_toList]
    exact Nat.le_add_right _ _
  refine ⟨?_, ?_, ?_⟩
  · rw [unread_skip, unread_first_ofText, unread_first_ofText, String.toList_append,
      ← String.length_toList, List.drop_left]
  · rw [(offset_skip hle).1]
    rfl
  · rw [(offset_skip hle).2]
    rw [requests_first, requests_first]
    rfl

end Cursor.Shifted

namespace Grammar

/-- Two ends of a run, the second at a place that is so many characters further on. -/
inductive EndShifted (S : σ → σ → Prop) (E : Fault → σ → σ → Prop) (n : Nat) {β : Type} :
    EStateM.Result Fault (Progress σ) β → EStateM.Result Fault (Progress σ) β → Prop
  | ok (b : β) {c c' : Cursor} (hc : c.Shifted n c') {s s' : σ} (hs : S s s') :
      EndShifted S E n (.ok b ⟨c, s⟩) (.ok b ⟨c', s'⟩)
  | missing (what : String) {c c' : Cursor} (hc : c.Shifted n c') {s s' : σ} (hs : S s s') :
      EndShifted S E n (.error (c.missing what) ⟨c, s⟩)
        (.error ((c.missing what).shifted n) ⟨c', s'⟩)
  | failed (fault : Fault) {c c' : Cursor} (hc : c.Shifted n c') {s s' : σ} (hs : E fault s s') :
      EndShifted S E n (.error fault ⟨c, s⟩) (.error fault ⟨c', s'⟩)

/-- Ends that are alike from cursors that are shifted are shifted as well. -/
theorem EndAlike.shifted {β : Type} {S : σ → σ → Prop} {E : Fault → σ → σ → Prop} {k n : Nat}
    {c c' : Cursor} {r r' : EStateM.Result Fault (Progress σ) β} (h : EndAlike S E k c c' r r')
    (hc : c.Shifted n c') (hk : k ≤ c.unread.length) : EndShifted S E n r r' := by
  have hend := hc.skip hk
  cases h with
  | ok b hs => exact .ok b hend hs
  | missing what hs =>
    rw [hend.missing]
    exact .missing what hend hs
  | failed fault hs => exact .failed fault hend hs

/-! ## Behind the lines -/

variable {m : Clocked σ α} {S : σ → σ → Prop} {E : Fault → σ → σ → Prop}

/-- The start of a text that begins with blanks and something else. -/
theorem start_of_blanks {w u y : List Char} (hw : Blanks w) (hu : StopsAt isBlank u) (hne : u ≠ [])
    {source : Source} (h : source.toList = w ++ (u ++ y)) :
    Cursor.start source = (Cursor.first source).skip w.length ∧
      (Cursor.start source).unread = u ++ y := by
  have hunread : (Cursor.first source).unread = w ++ (u ++ y) := by rw [Cursor.unread_first, h]
  have hstops : StopsAt isBlank (u ++ y) := by
    refine hu.of_head? ?_
    obtain ⟨a, v, rfl⟩ := List.exists_cons_of_ne_nil hne
    rfl
  have hstart := skipBlanks_of_blanks hunread hw hstops
  refine ⟨hstart, ?_⟩
  rw [Cursor.start_eq, hstart, Cursor.unread_skip_append hunread]

/-- The start of a text that begins with complete lines: the blanks in front are of the lines. -/
theorem exists_start_append {p : List Char} (hp : Lines p) :
    ∃ w u, p = w ++ u ∧ Lines u ∧ ∀ (source : Source) (y : List Char), source.toList = p ++ y →
      Cursor.start source = (Cursor.first source).skip w.length ∧
        (Cursor.start source).unread = u ++ y := by
  obtain ⟨w, u, hw, hu, rfl⟩ := Lexeme.exists_blanks p
  -- the line feed at the end is no blank
  have hlt : w.length < (w ++ u).length := by
    have hcut : (w ++ u) ++ [] = w ++ u := List.append_nil _
    exact length_lt_of_not_mem hcut hp.mem hw.newline_not_mem
  have hlines : Lines u := by
    have hdrop := hp.drop hlt
    rwa [List.drop_left] at hdrop
  refine ⟨w, u, rfl, hlines, fun source y hsource => ?_⟩
  rw [List.append_assoc] at hsource
  exact start_of_blanks hw hu (List.ne_nil_of_mem hlines.mem) hsource

/-- Where complete lines are a program when a `;` follows them, more text behind the lines is read
as a program, from a state that is like the one the lines have left. -/
theorem program_append (hm : m.Simulates S E) {p q : String} (hp : Lines p.toList)
    (hends : ';' ∉ p.toList) (hq : (q.toList.dropWhile isBlank).head? ≠ some ';') {s s' : σ}
    (hs : S s s') {after : Progress σ}
    (h : program m (.start (.ofText (p ++ ";")) s') = .ok () after) :
    ∃ c t, S t after.state ∧ (Cursor.start (.ofText q)).Shifted p.length c ∧
      program m (.start (.ofText (p ++ q)) s) = program m ⟨c, t⟩ := by
  obtain ⟨w, u, hcut, hu, hstart⟩ := exists_start_append hp
  have htext (q : String) : (Source.ofText (p ++ q)).toList = p.toList ++ q.toList := by
    rw [Source.toList_ofText, String.toList_append]
  obtain ⟨hfirst, hunread⟩ := hstart _ _ (htext q)
  obtain ⟨-, hunread'⟩ := hstart _ _ (htext ";")
  rw [Progress.start] at h
  -- the whole and the lines with a `;` agree up to the seam
  cases program_seam hm hu hunread hunread' hs with
  | before n hn hend =>
    -- the program would end at a `;` among the lines
    rw [h] at hend
    generalize program m ⟨Cursor.start (.ofText (p ++ q)), s⟩ = r at hend
    cases hend with
    | @ok _ t t' ht =>
      obtain ⟨-, -, -, hat⟩ := program_eq_ok_iff.1 h
      refine absurd ?_ hends
      rw [hcut]
      refine List.mem_append_right w (List.mem_of_mem_drop (i := n) (List.mem_of_mem_head? ?_))
      have hlook : (u.drop n ++ [';']).head? = some ';' := by
        rw [Cursor.isAt, decide_eq_true_eq, Cursor.look_eq_head?, Cursor.unread_skip, hunread',
          List.drop_append_of_le_length hn.le] at hat
        exact hat
      rwa [List.head?_append_of_ne_nil] at hlook
      exact List.ne_nil_of_length_pos (by rw [List.length_drop]; omega)
  | @through n hn t t' ht hled hgo hgo' =>
    -- from the seam on, the whole stands where its second part would, only further on
    have hbehind : (Cursor.start (.ofText (p ++ q))).skip u.length =
        (Cursor.first (.ofText (p ++ q))).skip p.length := by
      rw [hfirst, ← Cursor.skip_add, ← List.length_append, ← hcut, String.length_toList]
    have hshifted : (Cursor.start (.ofText q)).Shifted p.length
        ((Cursor.start (.ofText (p ++ q))).skip u.length).skipBlanks := by
      rw [hbehind, Cursor.start_eq]
      exact (Cursor.Shifted.first p q).skipBlanks
    have hsemicolon : ((Cursor.start (.ofText (p ++ ";"))).skip u.length).skipBlanks.isAt ';' := by
      have hone : ((Cursor.start (.ofText (p ++ ";"))).skip u.length).unread = [';'] :=
        Cursor.unread_skip_append hunread'
      rw [skipBlanks_of_blanks (w := []) hone (List.forall_mem_nil _) (by decide)]
      exact Cursor.isAt_of_unread hone
    rw [hgo', goOn_eq_ok hsemicolon] at h
    cases h
    refine ⟨_, t, ht, hshifted, ?_⟩
    rw [Progress.start, hgo, goOn_eq_program]
    rw [Cursor.isAt, hshifted.look, Cursor.look_eq_head?, Cursor.start_eq, Cursor.skipBlanks,
      Cursor.unread_takeWhile, Cursor.unread_first_ofText]
    exact decide_eq_false hq

/-- What is read behind the lines goes as a program of its own, from states that are alike. -/
theorem program_append_alike {R : σ → σ → Prop} {D : Fault → σ → σ → Prop}
    (hm : m.Simulates R D) (hm' : m.Simulates S E) {p q : String} (hp : Lines p.toList)
    (hends : ';' ∉ p.toList) (hq : (q.toList.dropWhile isBlank).head? ≠ some ';') {s s' u : σ}
    (hs : R s s') {after : Progress σ}
    (h : program m (.start (.ofText (p ++ ";")) s') = .ok () after)
    (hu : ∀ t, R t after.state → S u t) :
    EndShifted S E p.length (program m (.start (.ofText q) u))
      (program m (.start (.ofText (p ++ q)) s)) := by
  obtain ⟨c, t, ht, hc, hprogram⟩ := program_append hm hp hends hq hs h
  obtain ⟨k, hk, -, halike⟩ := simulated_program hm' (.start (.ofText q)) u
  rw [hprogram]
  exact (halike c t (.of_unread k hc.unread) (hu t ht)).shifted hc hk

end Grammar

/-! ## Calls -/

/-- A call and what came of it, wherever it was made. -/
def Call.exchange (call : Call α) : Step α × Except Fault (Option α) := (call.step, call.answer)

/-- The second log has the exchanges of the first, which all succeeded, behind some others. -/
structure Logged.After (before : List (Step α × Except Fault (Option α))) (l l' : Logged σ α) :
    Prop where
  state : l'.state = l.state
  calls : l'.calls.map Call.exchange = before ++ l.calls.map Call.exchange
  succeed : ∀ call ∈ l.calls, call.Succeeds

/-- The same with a call among those of the first log that failed. -/
structure Logged.FailsAfter (before : List (Step α × Except Fault (Option α)))
    (l l' : Logged σ α) : Prop where
  state : l'.state = l.state
  calls : l'.calls.map Call.exchange = before ++ l.calls.map Call.exchange
  fails : ¬ ∀ call ∈ l.calls, call.Succeeds

/-- What was logged before is no matter to what is logged next. -/
theorem logged_simulates (m : Semantics σ α)
    (before : List (Step α × Except Fault (Option α))) :
    m.timeless.logged.Simulates (Logged.After before) fun _ => Logged.FailsAfter before := by
  rintro step c c' ⟨s, place, log⟩ ⟨s', place', log'⟩ - ⟨hstate, hcalls, hsucceed⟩
  obtain rfl : s' = s := hstate
  -- places are not compared, only the steps and what came of them
  have hnext (answer : Except Fault (Option α)) :
      (log' ++ [Call.mk c' step answer]).map Call.exchange =
        before ++ (log ++ [Call.mk c step answer]).map Call.exchange := by
    rw [List.map_append, List.map_append, hcalls, List.append_assoc]
    rfl
  cases h : m.timeless.perform step (m.timeless.tick c s') with
  | ok answer t =>
    have h' : m.timeless.perform step (m.timeless.tick c' s') = .ok answer t := h
    rw [Clocked.perform_logged_ok h, Clocked.perform_logged_ok h']
    refine ⟨rfl, rfl, hnext _, List.forall_mem_append.2 ⟨hsucceed, ?_⟩⟩
    exact List.forall_mem_singleton.2 ⟨answer, rfl⟩
  | error fault t =>
    have h' : m.timeless.perform step (m.timeless.tick c' s') = .error fault t := h
    rw [Clocked.perform_logged_error h, Clocked.perform_logged_error h']
    refine ⟨rfl, rfl, hnext _, fun hall => ?_⟩
    obtain ⟨answer, hanswer⟩ := hall _ (List.mem_append_right log List.mem_cons_self)
    cases hanswer

/-- The account of a program that goes as another one does behind some calls and characters. -/
structure Account.Appended (before : List (Step α × Except Fault (Option α))) (n : Nat)
    (second whole : Account σ α) : Prop where
  calls : whole.calls.map Call.exchange = before ++ second.calls.map Call.exchange
  state : whole.state = second.state
  requests : whole.cursor.source.requests = second.cursor.source.requests + n
  /-- A program that did not fail in a call ended for the text. -/
  text : (∀ call ∈ second.calls, call.Succeeds) →
    whole.result = second.result.mapError (Fault.shifted n)
  fails : (¬ ∀ call ∈ second.calls, call.Succeeds) → whole.result = second.result

/-- Shifted ends make accounts with the same calls behind those from before. -/
theorem account_appended {before : List (Step α × Except Fault (Option α))} {n : Nat}
    {r r' : EStateM.Result Fault (Progress (Logged σ α)) Unit}
    (h : Grammar.EndShifted (Logged.After before) (fun _ => Logged.FailsAfter before) n r r') :
    (Account.ofResult r).Appended before n (.ofResult r') := by
  cases h with
  | ok _ hc hs =>
    exact ⟨hs.calls, hs.state, hc.requests, fun _ => rfl, fun hfails => absurd hs.succeed hfails⟩
  | missing what hc hs =>
    exact ⟨hs.calls, hs.state, hc.requests, fun _ => rfl, fun hfails => absurd hs.succeed hfails⟩
  | failed fault hc hs =>
    exact ⟨hs.calls, hs.state, hc.requests, fun hsucceed => absurd hsucceed hs.fails, fun _ => rfl⟩

/-- The log of a program that ended well. -/
theorem program_logged_of_ok {m : Clocked σ α} {source : Source} {state : σ} {q : Progress σ}
    (h : Grammar.program m (.start source state) = .ok () q) :
    ∃ l, Grammar.program m.logged (.start source ⟨state, .start source, []⟩) =
        .ok () ⟨q.cursor, l⟩ ∧ l.state = q.state ∧ l.calls = (account m source state).calls := by
  have hprogram := program_eq_finished m source state
  rw [h] at hprogram
  unfold account at hprogram ⊢
  cases hlogged : Grammar.program m.logged (.start source ⟨state, .start source, []⟩) with
  | ok _ r =>
    rw [hlogged] at hprogram
    -- a log changes neither the cursor nor the state
    cases hprogram
    exact ⟨r.state, rfl, rfl, rfl⟩
  | error fault r =>
    rw [hlogged] at hprogram
    cases hprogram

/-! ## Listings -/

/-- The second listing has the first behind some lines, which are counted, too. -/
structure Listing.After (lines : String) (count : Nat) (s s' : Writing Nat) : Prop where
  unlimited : s.sink.Unlimited
  unlimited' : s'.sink.Unlimited
  memory : s'.memory = count + s.memory
  text : s'.sink.text = lines ++ s.sink.text

/-- What was compiled before is no matter to what is compiled next. -/
theorem Listing.simulates_after (lines : String) (count : Nat) :
    semantics.timeless.Simulates (Listing.After lines count) fun _ _ _ => False := by
  intro step c c' s s' _ hs
  obtain ⟨answer, hstep⟩ := perform_eq_ok step
  obtain ⟨t, hok, hmemory, hsink, htext⟩ := hstep s hs.unlimited
  obtain ⟨t', hok', hmemory', hsink', htext'⟩ := hstep s' hs.unlimited'
  show StepsAlike _ _ (semantics.perform step s) (semantics.perform step s')
  rw [hok, hok']
  refine ⟨rfl, hsink, hsink', ?_, ?_⟩
  · rw [hmemory, hmemory', hs.memory, Nat.add_assoc]
  · rw [htext, htext', hs.text, String.append_assoc]

/-- Lines that are a program when a `;` follows them are compiled before what comes behind them. -/
theorem compile_append {p q : String} (hp : Lines p.toList) (hends : ';' ∉ p.toList)
    (hq : (q.toList.dropWhile isBlank).head? ≠ some ';') {n : Nat}
    (h : (compile (.ofText (p ++ ";"))).result = .ok n) :
    (compile (.ofText (p ++ q))).sink.text =
        (compile (.ofText (p ++ ";"))).sink.text ++ (compile (.ofText q)).sink.text ∧
      (compile (.ofText (p ++ q))).result =
        ((compile (.ofText q)).result.map (n + ·)).mapError (Fault.shifted p.length) := by
  obtain ⟨after, hafter, hcount, htext⟩ := program_of_execute h
  have hstart : Listing.After "" 0 ⟨0, {}⟩ ⟨0, {}⟩ :=
    ⟨Sink.unlimited_empty, Sink.unlimited_empty, rfl, rfl⟩
  -- the second part is compiled with an empty sink, and behind the lines of the first
  have hends := Grammar.program_append_alike (Listing.simulates_after "" 0)
    (Listing.simulates_after (compile (.ofText (p ++ ";"))).sink.text n) (u := ⟨0, {}⟩)
    hp hends hq hstart hafter fun t ht => by
      refine ⟨Sink.unlimited_empty, ht.unlimited, ?_, ?_⟩
      · rw [← hcount, ht.memory, Nat.zero_add, Nat.add_zero]
      · rw [show (compile (.ofText (p ++ ";"))).sink.text = _ from htext, ht.text]
        exact (String.append_empty.trans String.empty_append).symm
  generalize hsecond : Grammar.program Listing.semantics.timeless (.start (.ofText q) ⟨0, {}⟩) = r
    at hends
  generalize hwhole : Grammar.program Listing.semantics.timeless
    (.start (.ofText (p ++ q)) ⟨0, {}⟩) = r' at hends
  -- the three ways in which a program ends, the last of which compilation does not have
  cases hends with
  | ok _ hc hs =>
    rw [show compile (.ofText q) = _ from execute_eq_ok hsecond hs.unlimited,
      show compile (.ofText (p ++ q)) = _ from execute_eq_ok hwhole hs.unlimited']
    refine ⟨?_, congrArg Except.ok hs.memory⟩
    rw [Sink.text_flushed, Sink.text_flushed]
    exact hs.text
  | missing what hc hs =>
    rw [show compile (.ofText q) = _ from execute_eq_error hsecond,
      show compile (.ofText (p ++ q)) = _ from execute_eq_error hwhole]
    exact ⟨hs.text, rfl⟩
  | failed fault hc hfalse => exact hfalse.elim

/-! ## Whole programs -/

/-- Lines that are a program when a `;` follows them make the same calls and leave the same state
when other text comes behind them. That text is read as a program of its own is, whatever the
semantics does: it makes the same calls from the state of the lines, leaves the same state, and
comes to the same result. The requests are more by the characters of the lines, and so are the
columns of a fault that blames the text, whereas the fault of a call stays as it is. In particular
its listing comes behind that of the lines, and its instructions are counted behind theirs. -/
theorem programs_compose (m : Semantics σ α) (state : σ) {p q : String} {after : Progress σ}
    (hlines : p.toList.getLast? = some '\n') (hends : ';' ∉ p.toList)
    (hfirst : Grammar.program m.timeless (.start (.ofText (p ++ ";")) state) = .ok () after)
    (hq : (q.toList.dropWhile isBlank).head? ≠ some ';') :
    let first := account m.timeless (.ofText (p ++ ";")) state
    let second := account m.timeless (.ofText q) after.state
    let whole := account m.timeless (.ofText (p ++ q)) state
    Grammar.program m.timeless (.start (.ofText q) after.state) =
        finished second.result second.cursor second.state ∧
      Grammar.program m.timeless (.start (.ofText (p ++ q)) state) =
        finished whole.result whole.cursor whole.state ∧
      second.Appended (first.calls.map Call.exchange) p.length whole ∧
      ∀ n, (compile (.ofText (p ++ ";"))).result = .ok n →
        (compile (.ofText (p ++ q))).sink.text =
            (compile (.ofText (p ++ ";"))).sink.text ++ (compile (.ofText q)).sink.text ∧
          (compile (.ofText (p ++ q))).result =
            ((compile (.ofText q)).result.map (n + ·)).mapError (Fault.shifted p.length) := by
  intro first second whole
  refine ⟨program_eq_finished _ _ _, program_eq_finished _ _ _, ?_,
    fun n => compile_append hlines hends hq⟩
  -- what is remembered of the first program is its state, and the calls so far are in the log
  obtain ⟨l, hlogged, hstate, hcalls⟩ := program_logged_of_ok hfirst
  have hstart : Logged.After [] (⟨state, .start (.ofText (p ++ q)), []⟩ : Logged σ α)
      ⟨state, .start (.ofText (p ++ ";")), []⟩ := ⟨rfl, rfl, List.forall_mem_nil _⟩
  refine account_appended (Grammar.program_append_alike (logged_simulates m [])
    (logged_simulates m _) hlines hends hq hstart hlogged fun t ht =>
      ⟨?_, ?_, List.forall_mem_nil _⟩)
  · exact ht.state.symm.trans hstate
  · rw [List.map_nil, List.append_nil, ← hcalls]
    exact ht.calls.symm

/-- The line feed belongs to the carriage return, and the tab to the line feed; the fault is found
where it is in the second text, five characters further on. -/
theorem programs_compose_return :
    ∃ after, Grammar.program (Trace.semantics .noted).timeless
        (.start (.ofText ("a=1\r\n" ++ ";")) {}) = .ok () after ∧
      (account (Trace.semantics .noted).timeless (.ofText "\t!;") after.state).Appended
        ((account (Trace.semantics .noted).timeless
          (.ofText ("a=1\r\n" ++ ";")) {}).calls.map Call.exchange) 5
        (account (Trace.semantics .noted).timeless (.ofText ("a=1\r\n" ++ "\t!;")) {}) := by
  have hok : ∃ after, Grammar.program (Trace.semantics .noted).timeless
      (.start (.ofText ("a=1\r\n" ++ ";")) {}) = .ok () after := ⟨_, by cbv⟩
  obtain ⟨after, hfirst⟩ := hok
  exact ⟨after, hfirst,
    (programs_compose _ _ (by decide) (by decide) hfirst (by decide)).2.2.1⟩

example : (run (.ofText "a=1\r\n\t!;")).result = .error ⟨.expected "Name", ⟨7, 8⟩⟩ := by cbv

end OnePass
