import OnePass.Execution

/-!
# Sinks without a limit

A sink that has room for everything never fails: what is written is all there, in order, and a
program that ends well is flushed (`execute_eq_ok`).
-/

namespace OnePass

variable {μ α : Type}

/-- A sink that takes everything. -/
structure Sink.Unlimited (sink : Sink) : Prop where
  room : sink.room = none
  flushFails : sink.flushFails = false

namespace Sink

/-- A sink that nothing is said of takes everything. -/
theorem unlimited_empty : Unlimited {} := ⟨rfl, rfl⟩

theorem text_start (room : Option Nat) (flushFails : Bool) : text { room, flushFails } = "" := rfl

/-- What is done last comes last in the text. -/
theorem text_note (sink : Sink) (output : Output) :
    (sink.note output).text = sink.text ++ output.text := by
  simp [text, note, String.join_append]

/-- A piece that is appended is the end of the text. -/
theorem text_append (sink : Sink) (piece : String) :
    (sink.append piece).text = sink.text ++ piece := sink.text_note (.piece piece)

/-- A piece of text is no flush. -/
theorem flushes_append (sink : Sink) (piece : String) :
    (sink.append piece).flushes = sink.flushes := List.countP_cons_of_neg nofun

/-- No flush is counted exactly if none is in the log. -/
theorem flushes_eq_zero_iff {sink : Sink} :
    sink.flushes = 0 ↔ ∀ entry ∈ sink.log, entry.2.isFlush = false := by
  simp only [flushes, List.countP_eq_zero, Bool.not_eq_true]

/-- A flush is no matter to what was written. -/
theorem text_flushed (sink : Sink) : (sink.note .flush).text = sink.text :=
  (sink.text_note .flush).trans String.append_empty

theorem flushes_flushed (sink : Sink) : (sink.note .flush).flushes = sink.flushes + 1 :=
  List.countP_cons_of_pos rfl

/-- There is room for everything also behind a piece. -/
theorem Unlimited.append {sink : Sink} (h : sink.Unlimited) (piece : String) :
    (sink.append piece).Unlimited := ⟨h.room, h.flushFails⟩

/-- Where there is room for everything, a write appends its piece. -/
theorem Unlimited.write {sink : Sink} (h : sink.Unlimited) (piece : String) :
    Sink.write piece sink = .ok () (sink.append piece) := by
  rw [Sink.write, h.room]

end Sink

theorem Writing.write_eq_ok {state : Writing μ} (h : state.sink.Unlimited) (piece : String) :
    Writing.write piece state = .ok () { state with sink := state.sink.append piece } := by
  rw [Writing.write, h.write]

/-- There is room for everything, and nothing was flushed yet. -/
structure Writing.Free (s : Writing μ) : Prop where
  unlimited : s.sink.Unlimited
  flushes : s.sink.flushes = 0

theorem Writing.Free.start (memory : μ) : Writing.Free ⟨memory, {}⟩ := ⟨Sink.unlimited_empty, rfl⟩

/-- A piece of output is no flush. -/
theorem Writing.Free.append {s : Writing μ} (h : s.Free) (memory : μ) (piece : String) :
    Writing.Free ⟨memory, s.sink.append piece⟩ :=
  ⟨h.unlimited.append piece, (s.sink.flushes_append piece).trans h.flushes⟩

/-- Whatever was written later and whenever, there is room for more. -/
theorem Writing.Free.of_log {s : Writing μ} (h : s.Free) (memory : μ) (time : Nat)
    {late : List (Nat × Output)} (hlate : ∀ entry ∈ late, entry.2.isFlush = false) :
    Writing.Free ⟨memory, { s.sink with clock := time, log := late ++ s.sink.log }⟩ := by
  refine ⟨⟨h.unlimited.room, h.unlimited.flushFails⟩, Sink.flushes_eq_zero_iff.2 ?_⟩
  exact List.forall_mem_append.2 ⟨hlate, Sink.flushes_eq_zero_iff.1 h.flushes⟩

/-- Time is no matter. -/
theorem Writing.Free.set_clock {s : Writing μ} (h : s.Free) (time : Nat) :
    Writing.Free { s with sink := { s.sink with clock := time } } :=
  h.of_log s.memory time (List.forall_mem_nil _)

/-- A program that ends well is flushed where it ended, whether that works or not. -/
theorem execute_of_ok {m : Clocked (Writing μ) α} {memory : μ} {source : Source} {sink : Sink}
    {p : Progress (Writing μ)}
    (h : Grammar.program m (.start source { memory, sink }) = .ok () p) :
    execute m memory source sink =
      let state := m.tick p.cursor p.state
      ⟨if state.sink.flushFails then .error (.internal "flush failed") else .ok state.memory,
        state.sink.note .flush, p.cursor.source⟩ := by
  rw [execute, h]
  simp only [Sink.flush]
  -- the flush is noted whether it works or not
  cases (m.tick p.cursor p.state).sink.flushFails <;> rfl

/-- Where a flush works, a program that ends well hands on the memory and all that was written. -/
theorem execute_eq_ok {m : Semantics (Writing μ) α} {memory : μ} {source : Source} {sink : Sink}
    {p : Progress (Writing μ)}
    (h : Grammar.program m.timeless (.start source { memory, sink }) = .ok () p)
    (hsink : p.state.sink.Unlimited) :
    execute m.timeless memory source sink =
      ⟨.ok p.state.memory, p.state.sink.note .flush, p.cursor.source⟩ := by
  refine (execute_of_ok h).trans ?_
  show (⟨if p.state.sink.flushFails then _ else _, _, _⟩ : Report μ) = _
  rw [hsink.flushFails]
  rfl

/-- A program that fails is not flushed: what was written, and no more, is in the sink. -/
theorem execute_eq_error {m : Clocked (Writing μ) α} {memory : μ} {source : Source} {sink : Sink}
    {p : Progress (Writing μ)} {fault : Fault}
    (h : Grammar.program m (.start source { memory, sink }) = .error fault p) :
    execute m memory source sink = ⟨.error fault, p.state.sink, p.cursor.source⟩ := by
  rw [execute, h]

/-- Work that succeeds was done by a program that ended well. -/
theorem program_of_execute {m : Semantics (Writing μ) α} {memory memory' : μ} {source : Source}
    {sink : Sink} (h : (execute m.timeless memory source sink).result = .ok memory') :
    ∃ p, Grammar.program m.timeless (.start source { memory, sink }) = .ok () p ∧
      p.state.memory = memory' ∧
      (execute m.timeless memory source sink).sink.text = p.state.sink.text := by
  cases hprogram : Grammar.program m.timeless (.start source { memory, sink }) with
  | error fault p =>
    rw [execute_eq_error hprogram] at h
    cases h
  | ok _ p =>
    rw [execute_of_ok hprogram] at h ⊢
    refine ⟨p, rfl, ?_, p.state.sink.text_flushed⟩
    -- the program has ended well, and so has the flush
    have hresult : (if p.state.sink.flushFails then .error (.internal "flush failed")
      else .ok p.state.memory : Except Fault μ) = .ok memory' := h
    split at hresult
    · cases hresult
    · exact Except.ok.inj hresult

end OnePass
