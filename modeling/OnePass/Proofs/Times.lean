import OnePass.Proofs.Actions

/-!
# The times at which a program writes

All output is noted with the time, which is how often further text was asked for. The times tell
nothing else: with a clock and without one a program comes to the same, since the steps of both
front ends do not look at it (`program_untimed`). And they go up as the program is read: what is
written between two places is noted with times between those of the places (`added_leads`).
-/

namespace OnePass

variable {μ α β : Type}

/-! ## Time is no matter -/

/-- The states differ only in the times at which output was noted. -/
structure Writing.Alike (s s' : Writing μ) : Prop where
  memory : s'.memory = s.memory
  outputs : s'.sink.log.map Prod.snd = s.sink.log.map Prod.snd
  free : s.Free
  free' : s'.Free

/-- The text is that of the outputs, whenever they were noted. -/
theorem Writing.Alike.text {s s' : Writing μ} (h : s.Alike s') : s'.sink.text = s.sink.text := by
  have houtputs := congrArg (List.map Output.text) h.outputs
  rw [List.map_map, List.map_map] at houtputs
  rw [Sink.text, Sink.text, List.map_reverse, List.map_reverse]
  exact congrArg (String.join ∘ List.reverse) houtputs

/-- A state that has room for everything is like itself. -/
theorem Writing.Alike.refl {s : Writing μ} (h : s.Free) : s.Alike s := ⟨rfl, rfl, h, h⟩

theorem Writing.Alike.trans {s t u : Writing μ} (h : s.Alike t) (h' : t.Alike u) : s.Alike u :=
  ⟨h'.memory.trans h.memory, h'.outputs.trans h.outputs, h.free, h'.free'⟩

/-- Clocks are no matter. -/
theorem Writing.Alike.set_clock {s s' : Writing μ} (h : s.Alike s') (time time' : Nat) :
    Writing.Alike { s with sink := { s.sink with clock := time } }
      { s' with sink := { s'.sink with clock := time' } } :=
  ⟨h.memory, h.outputs, h.free.set_clock time, h.free'.set_clock time'⟩

/-- A composed action does the same whatever the time is. -/
theorem Composed.alike {y : Action (Writing μ) β} (h : Composed y) {s s' : Writing μ}
    (hs : s.Alike s') : StepsAlike Writing.Alike (fun _ => Writing.Alike) (y s) (y s') := by
  obtain ⟨effect, heffect⟩ := h.exists_effect s.memory
  have hfirst := heffect s.sink hs.free.unlimited
  have hsecond := heffect s'.sink hs.free'.unlimited
  rw [← hs.memory] at hsecond
  -- the same pieces, each with the time of its own sink
  have hend : Writing.Alike
      ⟨effect.memory, { s.sink with
        log := effect.pieces.map (s.sink.clock, .piece ·) ++ s.sink.log }⟩
      ⟨effect.memory, { s'.sink with
        log := effect.pieces.map (s'.sink.clock, .piece ·) ++ s'.sink.log }⟩ := by
    refine ⟨rfl, ?_, hs.free.of_log _ _ (effect.not_isFlush _), hs.free'.of_log _ _
      (effect.not_isFlush _)⟩
    simp only [List.map_append, List.map_map, Function.comp_def, hs.outputs]
  rw [hfirst, hsecond]
  unfold Effect.applied
  cases effect.answer with
  | ok b => exact ⟨rfl, hend⟩
  | error fault => exact ⟨rfl, hend⟩

section

variable {m : Semantics (Writing μ) α}

theorem clocked_simulates (hm : ∀ step, Composed (m.perform step)) :
    (Writing.clocked m).Simulates Writing.Alike fun _ => Writing.Alike :=
  fun step _ _ _ _ _ hs => (hm step).alike (hs.set_clock _ _)

/-- The two replays end alike. -/
def ReplaysAlike : Replay (Writing μ) α → Replay (Writing μ) α → Prop
  | .complete values s, .complete values' s' => values = values' ∧ s.Alike s'
  | .failed place fault s, .failed place' fault' s' => place = place' ∧ fault = fault' ∧ s.Alike s'
  | .stuck, .stuck => True
  | _, _ => False

/-- A replay of the same calls ends alike, step by step. -/
theorem replay_alike (hm : ∀ step, Composed (m.perform step)) (calls : List (Call Nat))
    (values : List α) {s s' : Writing μ} (hs : s.Alike s') :
    ReplaysAlike ((Writing.clocked m).replay calls values s)
      (m.timeless.replay calls values s') := by
  induction calls generalizing values s s' with
  | nil => exact ⟨rfl, hs⟩
  | cons call calls ih =>
    cases hfill : call.step.fill values with
    | none =>
      rw [replay_cons_stuck hfill, replay_cons_stuck hfill]
      trivial
    | some step =>
      -- the clocks are set first, which is no matter
      have hsteps : StepsAlike Writing.Alike (fun _ => Writing.Alike)
          ((Writing.clocked m).perform step ((Writing.clocked m).tick call.place s))
          (m.timeless.perform step (m.timeless.tick call.place s')) :=
        (hm step).alike (hs.set_clock call.place.source.asked s'.sink.clock)
      cases hstep : (Writing.clocked m).perform step
          ((Writing.clocked m).tick call.place s) with
      | ok answer t =>
        cases hstep' : m.timeless.perform step (m.timeless.tick call.place s') with
        | ok answer' t' =>
          rw [hstep, hstep'] at hsteps
          obtain ⟨rfl, ht⟩ := hsteps
          rw [replay_cons_ok hfill hstep, replay_cons_ok hfill hstep']
          -- the same answer, so the replays go on with the same values
          exact ih _ ht
        | error fault' t' =>
          rw [hstep, hstep'] at hsteps
          exact hsteps.elim
      | error fault t =>
        cases hstep' : m.timeless.perform step (m.timeless.tick call.place s') with
        | ok answer' t' =>
          rw [hstep, hstep'] at hsteps
          exact hsteps.elim
        | error fault' t' =>
          rw [hstep, hstep'] at hsteps
          rw [replay_cons_error hfill hstep, replay_cons_error hfill hstep']
          exact ⟨rfl, hsteps⟩

/-- With a clock and without one, a program comes to the same. -/
theorem program_untimed (hm : ∀ step, Composed (m.perform step)) (source : Source)
    {s s' : Writing μ} (hs : s.Alike s') :
    ∃ result c t t', t.Alike t' ∧
      Grammar.program (Writing.clocked m) (.start source s) = finished result c t ∧
      Grammar.program m.timeless (.start source s') = finished result c t' := by
  have htimed := Grammar.program_eq_replay (Writing.clocked m) source s
  have huntimed := Grammar.program_eq_replay m.timeless source s'
  -- both programs are replays of one transcript, which no clock tells
  have halike := replay_alike hm (transcript m.calls source).calls [] hs
  rw [show (Writing.clocked m).calls = m.calls from rfl] at htimed
  rw [show m.timeless.calls = m.calls from rfl] at huntimed
  generalize (Writing.clocked m).replay (transcript m.calls source).calls [] s = r
    at htimed halike
  generalize m.timeless.replay (transcript m.calls source).calls [] s' = r' at huntimed halike
  cases r with
  | stuck => exact htimed.elim
  | complete values t =>
    cases r' with
    | complete values' t' => exact ⟨_, _, t, t', halike.2, htimed, huntimed⟩
    | failed place' fault' t' => exact halike.elim
    | stuck => exact halike.elim
  | failed place fault t =>
    cases r' with
    | complete values' t' => exact halike.elim
    | stuck => exact halike.elim
    | failed place' fault' t' =>
      obtain ⟨rfl, rfl, ht⟩ := halike
      exact ⟨.error fault, place, t, t', ht, htimed, huntimed⟩

/-- What a program writes is the same with a clock and without one. -/
theorem text_execute_untimed (hm : ∀ step, Composed (m.perform step)) (memory : μ)
    (source : Source) :
    (execute m.timeless memory source {}).sink.text =
      (Action.ended (Grammar.program (Writing.clocked m)
        (.start source ⟨memory, {}⟩))).state.sink.text := by
  obtain ⟨result, c, t, t', ht, htimed, huntimed⟩ :=
    program_untimed hm source (.refl (.start memory))
  rw [text_execute, huntimed, htimed, ended_finished, ended_finished, ht.text]

/-! ## Times go up -/

/-- To go on to the next character may ask for more. -/
theorem Source.asked_le_next (source : Source) : source.asked ≤ source.next.2.asked := by
  unfold Source.next
  split
  · exact le_rfl
  · exact Nat.le_succ _
  · exact Nat.le_succ _

/-- To go over characters may ask for more. -/
theorem Cursor.asked_le_skip (n : Nat) (c : Cursor) :
    c.source.asked ≤ (c.skip n).source.asked := by
  induction n generalizing c with
  | zero => exact le_rfl
  | succ n ih =>
    refine Nat.le_trans ?_ (ih c.advance)
    unfold Cursor.advance
    split
    · exact le_rfl
    · exact c.source.asked_le_next

theorem Cursor.Reads.asked_le {c c' : Cursor} {t : List Char} (h : c.Reads t c') :
    c.source.asked ≤ c'.source.asked := by
  rw [h.eq_skip]
  exact Cursor.asked_le_skip _ _

/-- What was written between two places was written in order, not before the first place was reached
and not after the second. -/
structure Added (p q : Progress (Writing μ)) : Prop where
  free : q.state.Free
  asked : p.cursor.source.asked ≤ q.cursor.source.asked
  log : ∃ late, q.state.sink.log = late ++ p.state.sink.log ∧
    late.Pairwise (fun entry earlier => earlier.1 ≤ entry.1) ∧
    ∀ entry ∈ late, p.cursor.source.asked ≤ entry.1 ∧ entry.1 ≤ q.cursor.source.asked

/-- What is written later has later times, so the order is kept. -/
theorem Added.trans {p q r : Progress (Writing μ)} (h : Added p q) (h' : Added q r) :
    Added p r := by
  obtain ⟨late, hlog, hordered, htimes⟩ := h.log
  obtain ⟨late', hlog', hordered', htimes'⟩ := h'.log
  refine ⟨h'.free, h.asked.trans h'.asked, late' ++ late, ?_, ?_, ?_⟩
  · rw [hlog', hlog, List.append_assoc]
  · refine List.pairwise_append.2 ⟨hordered', hordered, fun entry hentry earlier hearlier => ?_⟩
    -- the place in the middle is between their times
    exact (htimes earlier hearlier).2.trans (htimes' entry hentry).1
  · refine List.forall_mem_append.2 ⟨fun entry hentry => ?_, fun entry hentry => ?_⟩
    · exact ⟨h.asked.trans (htimes' entry hentry).1, (htimes' entry hentry).2⟩
    · exact ⟨(htimes entry hentry).1, (htimes entry hentry).2.trans h'.asked⟩

/-- Reading writes nothing, and a step writes at the time of its place. -/
theorem added_leads (hm : ∀ step, Composed (m.perform step)) :
    (Writing.clocked m).Leads fun p q : Progress (Writing μ) => p.state.Free → Added p q where
  refl p hp := ⟨hp, le_rfl, [], rfl, .nil, List.forall_mem_nil _⟩
  trans h h' hp := (h hp).trans (h' (h hp).free)
  read p t c hreads hp := ⟨hp, hreads.asked_le, [], rfl, .nil, List.forall_mem_nil _⟩
  step step p _ hp := by
    obtain ⟨effect, heffect⟩ := (hm step).exists_effect p.state.memory
    have hend : (Writing.clocked m).perform step ((Writing.clocked m).tick p.cursor p.state) =
        effect.applied { p.state.sink with clock := p.cursor.source.asked } :=
      heffect _ (hp.set_clock _).unlimited
    -- all pieces of a step have the time of its place
    have hadded : Added p { p with state := ⟨effect.memory, { p.state.sink with
        clock := p.cursor.source.asked
        log := effect.pieces.map (p.cursor.source.asked, .piece ·) ++ p.state.sink.log }⟩ } := by
      refine ⟨hp.of_log _ _ (effect.not_isFlush _), le_rfl, _, rfl, ?_, ?_⟩
      · exact List.pairwise_map.2 (List.pairwise_of_forall fun _ _ => le_rfl)
      · exact List.forall_mem_map.2 fun _ _ => ⟨le_rfl, le_rfl⟩
    rw [hend]
    unfold Effect.applied
    cases effect.answer with
    | ok b => exact hadded
    | error fault => exact hadded

end

end OnePass
