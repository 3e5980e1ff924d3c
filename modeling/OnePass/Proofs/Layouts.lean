import OnePass.Proofs.FrontEnds
import OnePass.Proofs.Reading.Glyphs

/-!
# Texts that show the same

Where two texts have the same glyphs, a parser does the same at both, whatever it is that the
semantics makes of it (`Formed.relays`). The glyphs may stand elsewhere, so the one thing that is
different is the column of a fault that blames the text: it is the place in the second text of the
glyph that is blamed in the first (`Fault.replaced`).

* **`Relayout`** — what is asked of two texts: the same glyphs, at places that correspond.
* **`Report.Relaid`** — what comes of them: the same output, the same result up to the column.
* **`run_relaid`**, **`compile_relaid`** — the two front ends on such texts.
-/

namespace OnePass

variable {σ α β γ μ : Type}

/-! ## Cursors with the same glyphs behind them -/

/-- A lexeme may start at both places, and the same glyphs come there. Where so many characters are
left at a glyph of the first text, `f` tells how many there are in the second. -/
structure Cursor.Relaid (f : Nat → Nat) (c c' : Cursor) : Prop where
  ready : c.Ready
  ready' : c'.Ready
  glyphs : c'.glyphs = c.glyphs.map (Glyph.moved f)

namespace Cursor.Relaid

variable {f : Nat → Nat} {c c' : Cursor}

/-- The first glyph is the same, so the shape at hand is. -/
theorem shape?_eq (h : Relaid f c c') : c'.shape? = c.shape? := by
  rw [h.ready.shape?_eq, h.ready'.shape?_eq, h.glyphs]
  cases c.glyphs <;> rfl

/-- As much is left as the place of the first glyph says. -/
theorem length_unread (h : Relaid f c c') (hf : f 0 = 0) :
    c'.unread.length = f c.unread.length := by
  rw [h.ready.length_unread, h.ready'.length_unread, h.glyphs]
  cases c.glyphs with
  | nil => exact hf.symm
  | cons g gs => rfl

theorem look_isSome (h : Relaid f c c') : c'.look.isSome = c.look.isSome := by
  have hshape := congrArg Option.isSome h.shape?_eq
  simpa [Cursor.shape?] using hshape

end Cursor.Relaid

namespace Grammar

variable {S : σ → σ → Prop} {E : Fault → σ → σ → Prop} {f : Nat → Nat}

/-- Two ends of a run, at places where the same glyphs come. -/
inductive EndRelaid (S : σ → σ → Prop) (E : Fault → σ → σ → Prop) (f : Nat → Nat) {β : Type} :
    EStateM.Result Fault (Progress σ) β → EStateM.Result Fault (Progress σ) β → Prop
  | ok (b : β) {c c' : Cursor} (hc : c.Relaid f c') {s s' : σ} (hs : S s s') :
      EndRelaid S E f (.ok b ⟨c, s⟩) (.ok b ⟨c', s'⟩)
  | missing (what : String) {c c' : Cursor} (hc : c.Relaid f c') {s s' : σ} (hs : S s s') :
      EndRelaid S E f (.error (c.missing what) ⟨c, s⟩) (.error (c'.missing what) ⟨c', s'⟩)
  | failed (fault : Fault) {c c' : Cursor} (hc : c.Relaid f c') {s s' : σ} (hs : E fault s s') :
      EndRelaid S E f (.error fault ⟨c, s⟩) (.error fault ⟨c', s'⟩)

/-- From places where the same glyphs come, and states that are alike, the parser ends so. -/
def Relays (S : σ → σ → Prop) (E : Fault → σ → σ → Prop) (f : Nat → Nat) (x : Parser σ β) : Prop :=
  ∀ {c c' : Cursor} {s s' : σ}, c.Relaid f c' → S s s' → EndRelaid S E f (x ⟨c, s⟩) (x ⟨c', s'⟩)

/-- A lexeme that is read from the glyphs alone is the same in both texts. -/
theorem relays_scan {lexeme : Scan β} {read : Lexeme.Reader β} {what : String}
    (h : Lexeme.Sees lexeme read what) : Relays S E f (scan lexeme) := by
  intro c c' s s' hc hs
  have hread := h.reads c hc.ready
  have hread' := h.reads c' hc.ready'
  rw [hc.glyphs, h.moved] at hread'
  -- the lexeme is found in both texts or in neither
  cases hanswer : read c.glyphs with
  | none =>
    rw [hanswer] at hread hread'
    simp only [scan, show lexeme c = _ from hread, show lexeme c' = _ from hread']
    exact .missing what hc hs
  | some answer =>
    rw [hanswer] at hread hread'
    obtain ⟨d, hok, hd, hglyphs⟩ := hread
    obtain ⟨d', hok', hd', hglyphs'⟩ := hread'
    simp only [scan, hok, hok']
    refine .ok _ ⟨hd, hd', ?_⟩ hs
    rw [hglyphs', hglyphs]

/-- One parser behind another, from where the first has left both texts. -/
theorem Relays.bind {x : Parser σ β} {k : β → Parser σ γ} (hx : Relays S E f x)
    (hk : ∀ b, Relays S E f (k b)) : Relays S E f (x >>= k) := by
  intro c c' s s' hc hs
  have hends := hx hc hs
  rw [bind_apply, bind_apply]
  generalize x ⟨c, s⟩ = r at hends ⊢
  generalize x ⟨c', s'⟩ = r' at hends ⊢
  -- a failure of the first is one of both
  cases hends with
  | ok b hd ht => exact hk b hd ht
  | missing what hd ht => exact .missing what hd ht
  | failed fault hd ht => exact .failed fault hd ht

variable {m : Clocked σ α}

/-- A step is performed on related states, and does not look at the text. -/
theorem relays_act (hm : m.Simulates S E) (step : Step α) {g : β → Option α} {action : Action σ β}
    (hcall : step.isCall = true → m.calls = true) (hg : Function.Injective g)
    (h : m.perform step = g <$> action) : Relays S E f (act m action) := by
  intro c c' s s' hc hs
  have halike : StepsAlike S E (action (m.tick c s)) (action (m.tick c' s')) := by
    apply StepsAlike.of_map hg
    rw [← h]
    exact hm step c c' hcall hs
  unfold act
  generalize action (m.tick c s) = r at halike ⊢
  generalize action (m.tick c' s') = r' at halike ⊢
  -- a step moves no cursor, so the places are as before
  match r, r', halike with
  | .ok b t, .ok _ t', ⟨rfl, ht⟩ => exact .ok b hc ht
  | .error fault t, .error _ t', ⟨rfl, ht⟩ => exact .failed fault hc ht

/-- Whatever is formed does the same at texts with the same glyphs. -/
theorem Formed.relays (hm : m.Simulates S E) {x : Parser σ β} (h : Formed m x) :
    Relays S E f x := by
  induction h with
  | pure b => intro c c' s s' hc hs; exact .ok b hc hs
  | missing what => intro c c' s s' hc hs; exact .missing what hc hs
  | symbol x hx => exact relays_scan (Lexeme.sees_symbol hx)
  | letter => exact relays_scan Lexeme.sees_letter
  | digits => exact relays_scan Lexeme.sees_digits
  | lineEnd => exact relays_scan (Lexeme.sees_lineEnd "")
  | act step hcall hg h => exact relays_act hm step hcall hg h
  | @cursor β k hk hlook ih =>
    intro c c' s s' hc hs
    -- what is chosen depends on the shape at hand, and that is the same
    have hsame : k c' = k c := hlook c' c hc.shape?_eq
    rw [cursor_bind_apply, cursor_bind_apply, hsame]
    exact ih c hc hs
  | bind hx hk ihx ihk => exact ihx.bind ihk

theorem relays_program (hm : m.Simulates S E) : Relays S E f (program m) := by
  intro c c' s s' hc hs
  -- one bound for both texts
  have hle : Progress.left ⟨c, s⟩ ≤ max c.unread.length c'.unread.length := Nat.le_max_left _ _
  have hle' : Progress.left ⟨c', s'⟩ ≤ max c.unread.length c'.unread.length := Nat.le_max_right _ _
  rw [← agreeUpTo_program m (Nat.le_refl _) hle, ← agreeUpTo_program m (Nat.le_refl _) hle']
  exact (formed_programWithin _).relays hm hc hs

end Grammar

/-! ## Texts -/

/-- The second text has the same glyphs as the first, and what stands at an offset of the first
stands at the `place` of that offset in the second. -/
structure Relayout (place : Nat → Nat) (src src' : String) : Prop where
  glyphs : glyphs ' ' src'.toList = (glyphs ' ' src.toList).map
    (Glyph.moved fun left => src'.length - place (src.length - left))
  place_le : ∀ k ≤ src.length, place k ≤ src'.length
  place_length : place src.length = src'.length

/-- How far a cursor has come in a text. -/
structure Cursor.On (src : String) (c : Cursor) : Prop where
  offset : c.offset + c.unread.length = src.length
  requests : c.source.requests = c.offset + 1

/-- Reading on keeps a cursor on its text. -/
theorem Cursor.On.of_reads {src : String} {t : List Char} {c : Cursor}
    (h : (Cursor.first (.ofText src)).Reads t c) : c.On src := by
  have hunread := congrArg List.length h.unread
  rw [Cursor.unread_first_ofText, List.length_append] at hunread
  have hle : t.length ≤ src.toList.length := by omega
  -- one request more than characters
  obtain ⟨hoffset, hrequests⟩ := Cursor.offset_skip_first hle
  rw [← h.eq_skip] at hoffset hrequests
  refine ⟨?_, ?_⟩
  · rw [← String.length_toList]
    omega
  · omega

theorem Cursor.On.of_program (m : Clocked σ α) (src : String) (state : σ) :
    (Action.ended (Grammar.program m (.start (.ofText src) state))).cursor.On src := by
  obtain ⟨w, -, hblanks⟩ := reads_skipBlanks (Cursor.first (.ofText src))
  obtain ⟨t, hreads⟩ := Grammar.leads_program (Grammar.reads_leads m) (.start (.ofText src) state)
  exact .of_reads (hblanks.trans hreads)

namespace Relayout

variable {place : Nat → Nat} {src src' : String}

theorem start (h : Relayout place src src') :
    (Cursor.start (.ofText src)).Relaid (fun left => src'.length - place (src.length - left))
      (.start (.ofText src')) := by
  refine ⟨Cursor.ready_skipBlanks _, Cursor.ready_skipBlanks _, ?_⟩
  rw [Cursor.start_eq, Cursor.start_eq, Cursor.glyphs_skipBlanks, Cursor.glyphs_skipBlanks,
    Cursor.glyphs, Cursor.glyphs, Cursor.unread_first_ofText, Cursor.unread_first_ofText, h.glyphs]

/-- The place of an offset, and what was requested until then. -/
theorem place_eq (h : Relayout place src src') {c c' : Cursor}
    (hc : c.Relaid (fun left => src'.length - place (src.length - left)) c') (hon : c.On src)
    (hon' : c'.On src') :
    c'.offset = place c.offset ∧
      ∃ k, c.source.requests = k + 1 ∧ c'.source.requests = place k + 1 := by
  -- as much is left in the second text as the place of the cursor says
  have hlength := hc.length_unread (by simp [h.place_length])
  have hoffset := hon.offset
  have hoffset' := hon'.offset
  have hle := h.place_le c.offset (by omega)
  rw [show src.length - c.unread.length = c.offset by omega] at hlength
  have heq : c'.offset = place c.offset := by omega
  refine ⟨heq, c.offset, hon.requests, ?_⟩
  rw [hon'.requests, heq]

end Relayout

/-- The fault in a text whose characters stand elsewhere. What is no fault of the text has no
place in it. -/
def Fault.replaced (place : Nat → Nat) (fault : Fault) : Fault :=
  match fault.cause with
  | .expected _ | .endOfInput _ =>
    { fault with
      column := ⟨place fault.column.first,
        place fault.column.first + (fault.column.last - fault.column.first)⟩ }
  | _ => fault

/-- The fault blames the character at some place of a text. -/
def Fault.BlamesText (fault : Fault) : Prop :=
  ∃ (c : Cursor) (what : String), fault = c.missing what

/-- A fault is never in front of where it begins. -/
theorem Fault.BlamesText.first_le_last {fault : Fault} (h : fault.BlamesText) :
    fault.column.first ≤ fault.column.last := by
  obtain ⟨c, what, rfl⟩ := h
  unfold Cursor.missing Cursor.column
  cases c.look <;> simp

/-- What stays where it is has the same fault. -/
theorem Fault.replaced_id {fault : Fault} (h : fault.column.first ≤ fault.column.last) :
    fault.replaced id = fault := by
  obtain ⟨cause, first, last⟩ := fault
  have hlast : first + (last - first) = last := Nat.add_sub_of_le h
  cases cause <;> simp [replaced, hlast]

/-- A fault of arithmetic has no place in the text. -/
theorem Fault.IsArithmetic.column_eq {fault : Fault} (h : fault.IsArithmetic) :
    fault.column = .nowhere := by
  rcases h with rfl | rfl <;> rfl

theorem Fault.IsArithmetic.replaced {fault : Fault} (h : fault.IsArithmetic) (place : Nat → Nat) :
    fault.replaced place = fault := by
  rcases h with rfl | rfl <;> rfl

/-- What is missing at corresponding cursors is the same fault, at corresponding places. -/
theorem Cursor.missing_replaced {place : Nat → Nat} {c c' : Cursor}
    (hlook : c'.look.isSome = c.look.isSome) (hoffset : c'.offset = place c.offset)
    (what : String) : c'.missing what = (c.missing what).replaced place := by
  unfold Cursor.missing Cursor.column Fault.replaced
  -- with a character at hand the column covers it, and at the end it is empty
  cases h : c.look with
  | none =>
    have h' : c'.look = none := by simpa [h] using hlook
    simp [h', hoffset]
  | some x =>
    obtain ⟨y, h'⟩ : ∃ y, c'.look = some y := Option.isSome_iff_exists.1 (by simp [hlook, h])
    simp [h', hoffset]

/-- The second cursor stands at the place that the first one has in the second text. -/
structure Cursor.Placed (place : Nat → Nat) (c c' : Cursor) : Prop where
  look_isSome : c'.look.isSome = c.look.isSome
  offset : c'.offset = place c.offset
  requests : ∃ k, c.source.requests = k + 1 ∧ c'.source.requests = place k + 1

/-- Two ends of a run, at a place of the first text and at that place in the second. -/
inductive Grammar.EndPlaced (S : σ → σ → Prop) (E : Fault → σ → σ → Prop) (place : Nat → Nat)
    {β : Type} :
    EStateM.Result Fault (Progress σ) β → EStateM.Result Fault (Progress σ) β → Prop
  | ok (b : β) {c c' : Cursor} (hc : c.Placed place c') {s s' : σ} (hs : S s s') :
      EndPlaced S E place (.ok b ⟨c, s⟩) (.ok b ⟨c', s'⟩)
  | missing (what : String) {c c' : Cursor} (hc : c.Placed place c') {s s' : σ} (hs : S s s') :
      EndPlaced S E place (.error (c.missing what) ⟨c, s⟩)
        (.error ((c.missing what).replaced place) ⟨c', s'⟩)
  | failed (fault : Fault) {c c' : Cursor} (hc : c.Placed place c') {s s' : σ}
      (hs : E fault s s') : EndPlaced S E place (.error fault ⟨c, s⟩) (.error fault ⟨c', s'⟩)

/-- Ends at corresponding glyphs are ends at corresponding places. -/
theorem Grammar.EndRelaid.placed {S : σ → σ → Prop} {E : Fault → σ → σ → Prop} {place : Nat → Nat}
    {src src' : String} {r r' : EStateM.Result Fault (Progress σ) β}
    (hends : EndRelaid S E (fun left => src'.length - place (src.length - left)) r r')
    (h : Relayout place src src') (hon : (Action.ended r).cursor.On src)
    (hon' : (Action.ended r').cursor.On src') : EndPlaced S E place r r' := by
  cases hends with
  | ok b hc hs =>
    obtain ⟨hoffset, hrequests⟩ := h.place_eq hc hon hon'
    exact .ok b ⟨hc.look_isSome, hoffset, hrequests⟩ hs
  | missing what hc hs =>
    obtain ⟨hoffset, hrequests⟩ := h.place_eq hc hon hon'
    -- the blame moves with the cursor
    rw [Cursor.missing_replaced hc.look_isSome hoffset]
    exact .missing what ⟨hc.look_isSome, hoffset, hrequests⟩ hs
  | failed fault hc hs =>
    obtain ⟨hoffset, hrequests⟩ := h.place_eq hc hon hon'
    exact .failed fault ⟨hc.look_isSome, hoffset, hrequests⟩ hs

/-! ## Reports -/

/-- What comes of a text and of another one with the same glyphs: the same output and the same
result, up to the column of a fault that blames the text. The second is read as far as the first. A
fault that does not blame the text has no column and is the very same. -/
structure Report.Relaid (place : Nat → Nat) (r r' : Report μ) : Prop where
  sink : r'.sink = r.sink
  result : r'.result = r.result.mapError (Fault.replaced place)
  requests : ∃ k, r.source.requests = k + 1 ∧ r'.source.requests = place k + 1
  nowhere : ∀ fault, r.result = .error fault →
    fault.BlamesText ∨ fault.column = .nowhere ∧ fault.replaced place = fault

/-- The same came of both texts, and as many characters were requested. -/
structure Report.Same (r r' : Report μ) : Prop where
  sink : r'.sink = r.sink
  result : r'.result = r.result
  requests : r'.source.requests = r.source.requests

/-- Where all glyphs stay at their places, the column is the same, too. -/
theorem Report.Relaid.same {r r' : Report μ} (h : r.Relaid id r') : r.Same r' := by
  refine ⟨h.sink, ?_, ?_⟩
  · rw [h.result]
    cases hresult : r.result with
    | ok memory => rfl
    | error fault =>
      -- a place that is moved by nothing stays if its ends are in order
      have hcolumn : fault.column.first ≤ fault.column.last := by
        rcases h.nowhere fault hresult with hblames | ⟨hnowhere, -⟩
        · exact hblames.first_le_last
        · simp [hnowhere, Column.nowhere]
      show Except.error (fault.replaced id) = .error fault
      rw [Fault.replaced_id hcolumn]
  · obtain ⟨k, hk, hk'⟩ := h.requests
    rw [hk, hk', id_eq]

/-- The states are the same, and there is room for everything. -/
def Writing.Same (s s' : Writing μ) : Prop := s' = s ∧ s.sink.Unlimited

/-- The steps of a semantics do the same on the same state. -/
theorem Semantics.FailsOnly.simulates {m : Semantics (Writing μ) α} {kind : Fault → Prop}
    (hm : m.FailsOnly kind) :
    m.timeless.Simulates Writing.Same fun fault s s' => kind fault ∧ s' = s := by
  rintro step c c' _ s hcall ⟨rfl, hs⟩
  -- there is room, so a failure has another reason
  have hroom := hm step s hcall hs
  show StepsAlike _ _ (m.perform step s) (m.perform step s)
  cases h : m.perform step s with
  | ok answer t =>
    rw [h] at hroom
    exact ⟨rfl, rfl, hroom⟩
  | error fault t =>
    rw [h] at hroom
    exact ⟨rfl, hroom, rfl⟩

/-- Work on two texts that ends at places that correspond. -/
theorem execute_placed {m : Semantics (Writing μ) α} {kind : Fault → Prop}
    (hkind : ∀ {fault}, kind fault → fault.IsArithmetic) {memory : μ} {place : Nat → Nat}
    {source source' : Source}
    (h : Grammar.EndPlaced Writing.Same (fun fault s s' => kind fault ∧ s' = s) place
      (Grammar.program m.timeless (.start source ⟨memory, {}⟩))
      (Grammar.program m.timeless (.start source' ⟨memory, {}⟩))) :
    (execute m.timeless memory source {}).Relaid place (execute m.timeless memory source' {}) := by
  generalize hr : Grammar.program m.timeless (.start source ⟨memory, {}⟩) = r at h
  generalize hr' : Grammar.program m.timeless (.start source' ⟨memory, {}⟩) = r' at h
  -- the three ways to end: well, with the text to blame, or by arithmetic
  cases h with
  | ok _ hc hs =>
    obtain ⟨rfl, hs⟩ := hs
    rw [execute_eq_ok hr hs, execute_eq_ok hr' hs]
    exact ⟨rfl, rfl, hc.requests, fun fault hfault => by cases hfault⟩
  | missing what hc hs =>
    obtain ⟨rfl, hs⟩ := hs
    rw [execute_eq_error hr, execute_eq_error hr']
    refine ⟨rfl, rfl, hc.requests, ?_⟩
    rintro _ ⟨rfl⟩
    exact .inl ⟨_, what, rfl⟩
  | failed fault hc hs =>
    obtain ⟨hfault, rfl⟩ := hs
    rw [execute_eq_error hr, execute_eq_error hr']
    refine ⟨rfl, ?_, hc.requests, ?_⟩
    · show Except.error fault = .error (fault.replaced place)
      rw [(hkind hfault).replaced]
    · rintro _ ⟨rfl⟩
      exact .inr ⟨(hkind hfault).column_eq, (hkind hfault).replaced place⟩

/-- Work on a text goes like the work on another one with the same glyphs. -/
theorem execute_relaid {m : Semantics (Writing μ) α} {kind : Fault → Prop} (hm : m.FailsOnly kind)
    (hkind : ∀ {fault}, kind fault → fault.IsArithmetic) (memory : μ) {place : Nat → Nat}
    {src src' : String} (h : Relayout place src src') :
    (execute m.timeless memory (.ofText src) {}).Relaid place
      (execute m.timeless memory (.ofText src') {}) := by
  have hsame : Writing.Same (⟨memory, {}⟩ : Writing μ) ⟨memory, {}⟩ := ⟨rfl, Sink.unlimited_empty⟩
  have hends := Grammar.relays_program hm.simulates h.start hsame
  have hon := Cursor.On.of_program m.timeless src ⟨memory, {}⟩
  have hon' := Cursor.On.of_program m.timeless src' ⟨memory, {}⟩
  exact execute_placed hkind (hends.placed h hon hon')

/-- A text runs like another one with the same glyphs. -/
theorem run_relaid {place : Nat → Nat} {src src' : String} (h : Relayout place src src') :
    (run (.ofText src)).Relaid place (run (.ofText src')) :=
  execute_relaid Evaluation.failsOnly id {} h

/-- A text is compiled like another one with the same glyphs. -/
theorem compile_relaid {place : Nat → Nat} {src src' : String} (h : Relayout place src src') :
    (compile (.ofText src)).Relaid place (compile (.ofText src')) :=
  execute_relaid Listing.failsOnly False.elim 0 h

end OnePass
