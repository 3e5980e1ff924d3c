import OnePass.Proofs.Actions
import OnePass.Proofs.Truncation

/-!
# A sink with a limit beside one without

The same work is done twice, once with room for everything and once with a sink that has a limit. As
long as the output of the first is within the limit, the second does the same; when it is not, the
second has failed, and has written what fits. An action that is like that for one limit *obeys* it
(`Obeys`). Writing obeys every limit, and so does whatever is made of actions that do
(`Composed.obeys`), such as the steps of evaluation and of compilation. So does a replay of steps
(`replay_confined`).
-/

namespace OnePass

variable {μ α β γ : Type}

/-! ## What fits of a text -/

namespace Sink

/-- A text that there is room for is written, and then comes what fits of the rest. -/
theorem fitting_append_of_le {room : Nat} {xs : List Char}
    (h : (String.ofList xs).utf8ByteSize ≤ room) (ys : List Char) :
    fitting room (xs ++ ys) = xs ++ fitting (room - (String.ofList xs).utf8ByteSize) ys := by
  induction xs generalizing room with
  | nil => rfl
  | cons c xs ih =>
    rw [String.ofList_cons, String.utf8ByteSize_append, String.utf8ByteSize_singleton] at h ⊢
    rw [List.cons_append, fitting, if_pos (by omega), ih (by omega), List.cons_append,
      Nat.sub_add_eq]

/-- Behind a text that there is no room for, nothing fits. -/
theorem fitting_append_of_lt {room : Nat} {xs : List Char}
    (h : room < (String.ofList xs).utf8ByteSize) (ys : List Char) :
    fitting room (xs ++ ys) = fitting room xs := by
  induction xs generalizing room with
  | nil => exact absurd h (Nat.not_lt_zero _)
  | cons c xs ih =>
    rw [String.ofList_cons, String.utf8ByteSize_append, String.utf8ByteSize_singleton] at h
    rw [List.cons_append, fitting, fitting]
    by_cases hc : c.utf8Size ≤ room
    · rw [if_pos hc, if_pos hc, ih (by omega)]
    · rw [if_neg hc, if_neg hc]

end Sink

/-- There is room for the text, if there is a limit. -/
def Fits (limit : Option Nat) (text : String) : Prop := ∀ bytes ∈ limit, text.utf8ByteSize ≤ bytes

/-- What begins a text that fits does so too. -/
theorem Fits.of_append {limit : Option Nat} {text more : String} (h : Fits limit (text ++ more)) :
    Fits limit text := by
  intro bytes hbytes
  have hall := h bytes hbytes
  rw [String.utf8ByteSize_append] at hall
  omega

/-- Only a limit can be passed. -/
theorem exists_lt_of_not_fits {limit : Option Nat} {text : String} (h : ¬ Fits limit text) :
    ∃ bytes, limit = some bytes ∧ bytes < text.utf8ByteSize := by
  cases limit with
  | none => exact absurd (fun _ hbytes => nomatch hbytes) h
  | some bytes =>
    refine ⟨bytes, rfl, Nat.lt_of_not_le fun hle => h ?_⟩
    rintro _ ⟨⟩
    exact hle

/-- The sink is full, and what it holds is what fits of a longer text. -/
structure CutTo (limit : Option Nat) (text : String) (sink : Sink) : Prop where
  flushes : sink.flushes = 0
  text : ∃ bytes, limit = some bytes ∧ bytes < text.utf8ByteSize ∧
    sink.text = String.ofList (Sink.fitting bytes text.toList)

/-- What is behind the text does not fit either. -/
theorem CutTo.append {limit : Option Nat} {text : String} {sink : Sink} (h : CutTo limit text sink)
    (more : String) : CutTo limit (text ++ more) sink := by
  obtain ⟨bytes, hlimit, hlt, htext⟩ := h.text
  refine ⟨h.flushes, bytes, hlimit, ?_, ?_⟩
  · rw [String.utf8ByteSize_append]
    omega
  · have hlt' : bytes < (String.ofList text.toList).utf8ByteSize := by
      rwa [String.ofList_toList]
    rw [htext, String.toList_append, Sink.fitting_append_of_lt hlt']

/-! ## The two states -/

/-- The same state with a sink that has a limit for all that is written. -/
def Writing.confined (limit : Option Nat) (flushFails : Bool) (s : Writing μ) : Writing μ :=
  { s with sink := { s.sink with
      room := limit.map fun bytes => bytes - s.sink.text.utf8ByteSize
      flushFails } }

/-- The sink of the second state has more, or as much, in it. -/
structure Grown (s t : Writing μ) : Prop where
  free : t.Free
  text : ∃ more, t.sink.text = s.sink.text ++ more

theorem Grown.refl {s : Writing μ} (h : s.Free) : Grown s s := ⟨h, "", String.append_empty.symm⟩

theorem Grown.trans {s t u : Writing μ} (h : Grown s t) (h' : Grown t u) : Grown s u := by
  obtain ⟨more, htext⟩ := h.text
  obtain ⟨more', htext'⟩ := h'.text
  exact ⟨h'.free, more ++ more', by rw [htext', htext, String.append_assoc]⟩

theorem Grown.not_fits {s t : Writing μ} (h : Grown s t) {limit : Option Nat}
    (hs : ¬ Fits limit s.sink.text) : ¬ Fits limit t.sink.text := by
  obtain ⟨more, htext⟩ := h.text
  rw [htext]
  exact fun hfits => hs hfits.of_append

/-- A sink that was cut has what fits of any longer output as well. -/
theorem Grown.cutTo {s t : Writing μ} (h : Grown s t) {limit : Option Nat} {sink : Sink}
    (hs : CutTo limit s.sink.text sink) : CutTo limit t.sink.text sink := by
  obtain ⟨more, htext⟩ := h.text
  rw [htext]
  exact hs.append more

/-! ## Actions -/

variable {limit : Option Nat} {flushFails : Bool}

/-- The end of an action with the sink of its state confined. -/
def confinedEnd (limit : Option Nat) (flushFails : Bool) :
    EStateM.Result Fault (Writing μ) β → EStateM.Result Fault (Writing μ) β
  | .ok b s => .ok b (s.confined limit flushFails)
  | .error fault s => .error fault (s.confined limit flushFails)

/-- What comes of an action with a limit, beside what comes of it without one. -/
structure Confines (limit : Option Nat) (flushFails : Bool)
    (r r' : EStateM.Result Fault (Writing μ) β) : Prop where
  fits : Fits limit (Action.ended r).sink.text → r' = confinedEnd limit flushFails r
  full : ¬ Fits limit (Action.ended r).sink.text →
    ∃ s, r' = .error (.internal "sink full") s ∧ CutTo limit (Action.ended r).sink.text s.sink

/-- Without a limit the action only adds to the output; with one it does the same as far as that
fits. -/
def Obeys (limit : Option Nat) (flushFails : Bool) (y : Action (Writing μ) β) : Prop :=
  ∀ s : Writing μ, s.Free → Grown s (Action.ended (y s)) ∧
    (Fits limit s.sink.text → Confines limit flushFails (y s) (y (s.confined limit flushFails)))

/-- The memory has nothing to do with a limit. -/
theorem obeys_onMemory (g : μ → Except Fault β × μ) :
    Obeys limit flushFails (Writing.onMemory g) := by
  intro s hs
  have hgrown : Grown s { s with memory := (g s.memory).2 } :=
    ⟨⟨hs.unlimited, hs.flushes⟩, "", String.append_empty.symm⟩
  unfold Writing.onMemory
  rw [show (s.confined limit flushFails).memory = s.memory from rfl]
  cases (g s.memory).1 with
  | ok b => exact ⟨hgrown, fun hfits => ⟨fun _ => rfl, fun hnot => absurd hfits hnot⟩⟩
  | error fault => exact ⟨hgrown, fun hfits => ⟨fun _ => rfl, fun hnot => absurd hfits hnot⟩⟩

/-- A sink that has a limit writes a piece as long as all that is written is within the limit. -/
theorem write_confined {s : Writing μ} {piece : String}
    (h : Fits limit (s.sink.text ++ piece)) :
    Writing.write piece (s.confined limit flushFails) =
      .ok () (Writing.confined limit flushFails { s with sink := s.sink.append piece }) := by
  cases limit with
  | none => rfl
  | some bytes =>
    have hall := h bytes rfl
    rw [String.utf8ByteSize_append] at hall
    -- the room that is left is the limit less what was written
    have hroom : piece.utf8ByteSize ≤ bytes - s.sink.text.utf8ByteSize := by omega
    have hrest : bytes - s.sink.text.utf8ByteSize - piece.utf8ByteSize =
        bytes - (s.sink.append piece).text.utf8ByteSize := by
      rw [Sink.text_append, String.utf8ByteSize_append, Nat.sub_sub]
    simp only [Writing.write, Sink.write, Writing.confined, Option.map_some, if_pos hroom, hrest]
    rfl

/-- A sink with a limit is cut to it by a piece that goes beyond. -/
theorem write_confined_of_not_fits {s : Writing μ} {piece : String} (hs : s.Free)
    (hfits : Fits limit s.sink.text) (h : ¬ Fits limit (s.sink.text ++ piece)) :
    ∃ t, Writing.write piece (s.confined limit flushFails) = .error (.internal "sink full") t ∧
      CutTo limit (s.sink.text ++ piece) t.sink := by
  obtain ⟨bytes, rfl, hlt⟩ := exists_lt_of_not_fits h
  have htext := hfits bytes rfl
  have hroom : ¬ piece.utf8ByteSize ≤ bytes - s.sink.text.utf8ByteSize := by
    rw [String.utf8ByteSize_append] at hlt
    omega
  simp only [Writing.write, Sink.write, Writing.confined, Option.map_some, if_neg hroom]
  refine ⟨_, rfl, (s.sink.flushes_append _).trans hs.flushes, bytes, rfl, hlt, ?_⟩
  have hsize : (String.ofList s.sink.text.toList).utf8ByteSize ≤ bytes := by
    rwa [String.ofList_toList]
  -- what was written before fits, so of the whole text it is the piece that is cut
  rw [String.toList_append, Sink.fitting_append_of_le hsize, String.ofList_append,
    String.ofList_toList]
  exact Sink.text_append _ _

/-- To write obeys any limit: the piece is written if it fits, and cut otherwise. -/
theorem obeys_write (piece : String) :
    Obeys limit flushFails (Writing.write piece : Action (Writing μ) Unit) := by
  intro s hs
  have htext : (s.sink.append piece).text = s.sink.text ++ piece := Sink.text_append s.sink piece
  rw [Writing.write_eq_ok hs.unlimited piece]
  refine ⟨⟨hs.append s.memory piece, piece, htext⟩, fun hfits => ⟨fun h => ?_,
    fun h => ?_⟩⟩
  · -- there is room for the piece, so both sinks take it
    exact write_confined (htext ▸ h)
  · obtain ⟨t, hwrite, hcut⟩ := write_confined_of_not_fits hs hfits (htext ▸ h)
    exact ⟨t, hwrite, htext ▸ hcut⟩

/-- What obeys a limit may come one behind the other. -/
theorem Obeys.bind {y : Action (Writing μ) β} {f : β → Action (Writing μ) γ}
    (hy : Obeys limit flushFails y) (hf : ∀ b, Obeys limit flushFails (f b)) :
    Obeys limit flushFails (y >>= f) := by
  intro s hs
  obtain ⟨hgrown, hconfines⟩ := hy s hs
  rw [Action.bind_apply, Action.bind_apply]
  cases hys : y s with
  | error fault t =>
    rw [hys] at hgrown hconfines
    -- a fault of the first action is the fault of both
    refine ⟨hgrown, fun hfits => ⟨fun hend => ?_, fun hend => ?_⟩⟩
    · rw [(hconfines hfits).fits hend]
      rfl
    · obtain ⟨s', hfull, hcut⟩ := (hconfines hfits).full hend
      exact ⟨s', by rw [hfull], hcut⟩
  | ok b t =>
    rw [hys] at hgrown hconfines
    obtain ⟨hgrown', hconfines'⟩ := hf b t hgrown.free
    refine ⟨hgrown.trans hgrown', fun hfits => ?_⟩
    by_cases hmiddle : Fits limit t.sink.text
    · rw [(hconfines hfits).fits hmiddle]
      exact hconfines' hmiddle
    · -- the limit was passed by the first action, so the second one is not reached
      obtain ⟨s', hfull, hcut⟩ := (hconfines hfits).full hmiddle
      rw [hfull]
      exact ⟨fun hend => absurd hend (hgrown'.not_fits hmiddle),
        fun _ => ⟨s', rfl, hgrown'.cutTo hcut⟩⟩

theorem Composed.obeys {y : Action (Writing μ) β} (h : Composed y) : Obeys limit flushFails y := by
  induction h with
  | memory g => exact obeys_onMemory g
  | write piece => exact obeys_write piece
  | bind hy hf ihy ihf => exact ihy.bind ihf

/-! ## Replays -/

/-- The call at whose place a replay ended comes from the calls. -/
theorem exists_call_of_failed {σ α : Type} {m : Clocked σ α} {calls : List (Call Nat)}
    {values : List α} {s t : σ} {place : Cursor} {fault : Fault}
    (h : m.replay calls values s = .failed place fault t) : ∃ call ∈ calls, call.place = place := by
  fun_induction m.replay calls values s with
  | case1 => cases h
  | case2 => cases h
  | case3 call calls values s step hfill answer s' hstep ih =>
    obtain ⟨call', hcall', hplace⟩ := ih h
    exact ⟨call', List.mem_cons_of_mem _ hcall', hplace⟩
  | case4 call calls values s step hfill fault s' hstep =>
    cases h
    exact ⟨call, List.mem_cons_self, rfl⟩

section

variable {m : Semantics (Writing μ) α}

/-- A replay without a limit only adds to the output. -/
theorem replay_grown (hm : ∀ step, Obeys limit flushFails (m.perform step))
    (calls : List (Call Nat)) (values : List α) (s : Writing μ) (hs : s.Free) :
    match m.timeless.replay calls values s with
    | .complete _ t => Grown s t
    | .failed _ _ t => Grown s t
    | .stuck => True := by
  fun_induction m.timeless.replay calls values s with
  | case1 => exact .refl hs
  | case2 => trivial
  | case3 call calls values s step hfill answer s' hstep ih =>
    have hgrown := (hm step s hs).1
    rw [show m.perform step s = _ from hstep] at hgrown
    -- the step has written something, and the rest writes behind it
    have hrest := ih hgrown.free
    cases hreplay : m.timeless.replay calls (values ++ answer.toList) s' with
    | stuck => trivial
    | complete values' t => rw [hreplay] at hrest; exact hgrown.trans hrest
    | failed place fault t => rw [hreplay] at hrest; exact hgrown.trans hrest
  | case4 call calls values s step hfill fault s' hstep =>
    have hgrown := (hm step s hs).1
    rw [show m.perform step s = _ from hstep] at hgrown
    exact hgrown

/-- What comes of a replay with a limit, beside what comes of it without one. With a limit it may
end earlier, at the place of one of the calls. -/
def ConfinesReplay (limit : Option Nat) (flushFails : Bool) (calls : List (Call Nat)) :
    Replay (Writing μ) α → Replay (Writing μ) α → Prop
  | .stuck, _ => True
  | .complete values s, r' =>
    s.Free ∧ (Fits limit s.sink.text → r' = .complete values (s.confined limit flushFails)) ∧
      (¬ Fits limit s.sink.text → ∃ call ∈ calls, ∃ t,
        r' = .failed call.place (.internal "sink full") t ∧ CutTo limit s.sink.text t.sink)
  | .failed place fault s, r' =>
    s.Free ∧ (Fits limit s.sink.text → r' = .failed place fault (s.confined limit flushFails)) ∧
      (¬ Fits limit s.sink.text → ∃ call ∈ calls, ∃ t,
        r' = .failed call.place (.internal "sink full") t ∧ CutTo limit s.sink.text t.sink ∧
        call.place.source.requests ≤ place.source.requests)

/-- A call that comes first is of no matter where both replays go on behind it. -/
theorem ConfinesReplay.cons {calls : List (Call Nat)} {r r' : Replay (Writing μ) α}
    (h : ConfinesReplay limit flushFails calls r r') (call : Call Nat) :
    ConfinesReplay limit flushFails (call :: calls) r r' := by
  cases r with
  | stuck => trivial
  | complete values s =>
    refine ⟨h.1, h.2.1, fun hfull => ?_⟩
    obtain ⟨call', hcall', hends⟩ := h.2.2 hfull
    exact ⟨call', List.mem_cons_of_mem _ hcall', hends⟩
  | failed place fault s =>
    refine ⟨h.1, h.2.1, fun hfull => ?_⟩
    obtain ⟨call', hcall', hends⟩ := h.2.2 hfull
    exact ⟨call', List.mem_cons_of_mem _ hcall', hends⟩

/-- The calls come in the order of their places. -/
def Ordered {α : Type} (calls : List (Call α)) : Prop :=
  calls.Pairwise fun call later => call.place.source.requests ≤ later.place.source.requests

/-- A replay that was cut in its first call, beside one that went on. -/
theorem confinesReplay_of_cut {call : Call Nat} {calls : List (Call Nat)}
    (hordered : Ordered (call :: calls)) {values : List α} {s t : Writing μ} (hs : s.Free)
    (hm : ∀ step, Obeys limit flushFails (m.perform step)) (hfull : ¬ Fits limit s.sink.text)
    (hcut : CutTo limit s.sink.text t.sink) :
    ConfinesReplay limit flushFails (call :: calls) (m.timeless.replay calls values s)
      (.failed call.place (.internal "sink full") t) := by
  have hgrown := replay_grown hm calls values s hs
  cases hreplay : m.timeless.replay calls values s with
  | stuck => trivial
  | complete values' u =>
    rw [hreplay] at hgrown
    exact ⟨hgrown.free, fun hfits => absurd hfits (hgrown.not_fits hfull),
      fun _ => ⟨call, List.mem_cons_self, t, rfl, hgrown.cutTo hcut⟩⟩
  | failed place fault u =>
    rw [hreplay] at hgrown
    -- the other replay ended at a later call, so at no earlier place
    obtain ⟨later, hlater, rfl⟩ := exists_call_of_failed hreplay
    exact ⟨hgrown.free, fun hfits => absurd hfits (hgrown.not_fits hfull),
      fun _ => ⟨call, List.mem_cons_self, t, rfl, hgrown.cutTo hcut,
        List.rel_of_pairwise_cons hordered hlater⟩⟩

/-- The replay with a limit does the same up to the call by which the limit is passed. Induction on
the calls, with both sinks still alike. -/
theorem replay_confined (hm : ∀ step, Obeys limit flushFails (m.perform step))
    {calls : List (Call Nat)} (hordered : Ordered calls) (values : List α) (s : Writing μ)
    (hs : s.Free) (hfits : Fits limit s.sink.text) :
    ConfinesReplay limit flushFails calls (m.timeless.replay calls values s)
      (m.timeless.replay calls values (s.confined limit flushFails)) := by
  induction calls generalizing values s with
  | nil => exact ⟨hs, fun _ => rfl, fun hfull => absurd hfits hfull⟩
  | cons call calls ih =>
    cases hfill : call.step.fill values with
    | none =>
      rw [replay_cons_stuck hfill]
      trivial
    | some step =>
      obtain ⟨hgrown, hconfines⟩ := hm step s hs
      cases hstep : m.perform step s with
      | ok answer t =>
        rw [hstep] at hgrown hconfines
        rw [replay_cons_ok hfill hstep]
        -- behind the step the limit is still kept, or it was passed by it
        by_cases hmiddle : Fits limit t.sink.text
        · rw [replay_cons_ok hfill ((hconfines hfits).fits hmiddle)]
          exact (ih hordered.of_cons _ t hgrown.free hmiddle).cons call
        · obtain ⟨u, hfull, hcut⟩ := (hconfines hfits).full hmiddle
          rw [replay_cons_error hfill hfull]
          exact confinesReplay_of_cut hordered hgrown.free hm hmiddle hcut
      | error fault t =>
        rw [hstep] at hgrown hconfines
        rw [replay_cons_error hfill hstep]
        refine ⟨hgrown.free, fun hend => ?_, fun hend => ?_⟩
        · exact replay_cons_error hfill ((hconfines hfits).fits hend) calls
        · obtain ⟨u, hfull, hcut⟩ := (hconfines hfits).full hend
          exact ⟨call, List.mem_cons_self, u, replay_cons_error hfill hfull calls, hcut, le_rfl⟩

end

end OnePass
