import OnePass.Proofs.Steps

/-!
# Two runs that are alike

The same parser is run twice: at two places where the text at hand is the same, and on two states
that the steps of the semantics cannot tell apart (`Clocked.Simulates`). The first run reads some
characters; where the second finds these and the one behind them, it reads as many, ends as the
first does, and leaves a state that is like that of the first (`Formed.simulated`). The two may be
at different places of their texts, so a fault that blames the character at hand blames it at either
place (`EndAlike.missing`); all other faults are those of a step, and the same in both
(`EndAlike.failed`).
-/

namespace OnePass

/-! ## Texts that are alike so far -/

/-- The next `n` characters are the same, and so is the one behind them, if there is one. -/
def Cursor.AlikeFor (n : Nat) (c c' : Cursor) : Prop :=
  c'.unread.take (n + 1) = c.unread.take (n + 1)

namespace Cursor.AlikeFor

variable {n k : Nat} {c c' : Cursor}

theorem refl (n : Nat) (c : Cursor) : AlikeFor n c c := rfl

theorem of_unread (n : Nat) (h : c'.unread = c.unread) : AlikeFor n c c' := by
  rw [AlikeFor, h]

/-- Less is known of fewer characters. -/
theorem mono (h : AlikeFor n c c') (hk : k ≤ n) : AlikeFor k c c' := by
  have hunread := congrArg (List.take (k + 1)) h
  rwa [List.take_take, List.take_take, Nat.min_eq_left (by omega)] at hunread

/-- The character at hand is the same. -/
theorem look (h : AlikeFor n c c') : c.look = c'.look := by
  have hunread := congrArg List.head? h
  rw [List.head?_take, List.head?_take, if_neg (by omega), if_neg (by omega)] at hunread
  rw [look_eq_head?, look_eq_head?, hunread]

theorem length_le (h : AlikeFor n c c') (hn : n ≤ c.unread.length) : n ≤ c'.unread.length := by
  have hlength := congrArg List.length h
  rw [List.length_take, List.length_take] at hlength
  omega

/-- Characters that are the same can be skipped in both texts. -/
theorem skip (h : AlikeFor (n + k) c c') : AlikeFor k (c.skip n) (c'.skip n) := by
  have hunread := congrArg (List.drop n) h
  rw [List.drop_take, List.drop_take] at hunread
  rw [AlikeFor, unread_skip, unread_skip]
  rwa [show n + k + 1 - n = k + 1 by omega] at hunread

/-- What the text begins with, if that was read, and the character behind it. -/
theorem unread_append {t rest : List Char} (h : AlikeFor t.length c c')
    (ht : c.unread = t ++ rest) : ∃ rest', c'.unread = t ++ rest' ∧ rest'.head? = rest.head? := by
  have hunread : c'.unread.take (t.length + 1) = c.unread.take (t.length + 1) := h
  rw [ht] at hunread
  have htake : c'.unread.take t.length = t := by
    have := congrArg (List.take t.length) hunread
    rwa [List.take_take, List.take_take, Nat.min_eq_left (Nat.le_succ _), List.take_left] at this
  have happend : c'.unread = t ++ c'.unread.drop t.length := by
    conv_lhs => rw [← List.take_append_drop t.length c'.unread, htake]
  refine ⟨c'.unread.drop t.length, happend, ?_⟩
  have hdrop := congrArg (fun l => (List.drop t.length l).head?) hunread
  simpa only [List.drop_take, Nat.add_sub_cancel_left, List.drop_left, List.head?_take,
    if_neg one_ne_zero] using hdrop

end Cursor.AlikeFor

/-- Only the first character decides. -/
theorem StopsAt.of_head? {p : Char → Bool} {rest rest' : List Char} (h : StopsAt p rest)
    (hhead : rest'.head? = rest.head?) : StopsAt p rest' := fun x hx => h x (hhead ▸ hx)

/-- Behind a run stands none of its kind. -/
theorem stopsAt_dropWhile (p : Char → Bool) (s : List Char) : StopsAt p (s.dropWhile p) := by
  intro x hx
  have hnot := List.head?_dropWhile_not p s
  rw [hx] at hnot
  exact hnot

/-! ## Lexemes -/

/-- A lexeme reads some characters, and does so wherever they and the one behind them stand; or it
blames the character at hand, and does so wherever that stands. -/
def Decides {β : Type} (lexeme : Scan β) (c : Cursor) : Prop :=
  (∃ b n, n ≤ c.unread.length ∧ ∀ c', c.AlikeFor n c' → lexeme c' = .ok b (c'.skip n)) ∨
    ∃ what, ∀ c', c.AlikeFor 0 c' → lexeme c' = .error (c'.missing what) c'

namespace Lexeme

/-- A text, cut behind the blanks that it begins with. -/
theorem exists_blanks (s : List Char) :
    ∃ w rest, Blanks w ∧ StopsAt isBlank rest ∧ s = w ++ rest :=
  ⟨s.takeWhile isBlank, s.dropWhile isBlank, blanks_takeWhile s, stopsAt_dropWhile isBlank s,
    List.takeWhile_append_dropWhile.symm⟩

/-- The text at hand, cut behind the blanks that follow its first character. -/
theorem unread_eq_blanks {c : Cursor} {x : Char} (h : c.look = some x) :
    ∃ w rest, Blanks w ∧ StopsAt isBlank rest ∧ c.unread = x :: w ++ rest := by
  obtain ⟨w, rest, hw, hrest, hunread⟩ := exists_blanks c.advance.unread
  refine ⟨w, rest, hw, hrest, ?_⟩
  rw [Cursor.unread_eq_cons h, hunread, List.cons_append]

/-- What reads a text and the blanks behind it. -/
theorem decides_of_append {β : Type} {lexeme : Scan β} {b : β} {c : Cursor} {t rest : List Char}
    (ht : c.unread = t ++ rest)
    (h : ∀ (c' : Cursor) rest', c'.unread = t ++ rest' → rest'.head? = rest.head? →
      lexeme c' = .ok b (c'.skip t.length)) : Decides lexeme c := by
  refine Or.inl ⟨b, t.length, ?_, fun c' hc' => ?_⟩
  · rw [ht, List.length_append]
    omega
  · obtain ⟨rest', ht', hhead⟩ := hc'.unread_append ht
    exact h c' rest' ht' hhead

/-- A symbol depends on itself, the blanks behind it and one more character. -/
theorem decides_symbol (x : Char) (c : Cursor) : Decides (symbol x) c := by
  by_cases hat : c.look = some x
  · obtain ⟨w, rest, hw, hrest, hunread⟩ := unread_eq_blanks hat
    exact decides_of_append hunread fun c' rest' h hhead =>
      symbol_of_spelled h hw (hrest.of_head? hhead)
  · refine Or.inr ⟨_, fun c' hc' => if_neg ?_⟩
    rw [Cursor.isAt, ← hc'.look, decide_eq_true_eq]
    exact hat

/-- So does a name. -/
theorem decides_letter (c : Cursor) : Decides letter c := by
  cases hfilter : c.look.filter Char.isAlpha with
  | some x =>
    obtain ⟨hlook, hx⟩ := Option.filter_eq_some_iff.1 hfilter
    obtain ⟨w, rest, hw, hrest, hunread⟩ := unread_eq_blanks hlook
    exact decides_of_append hunread fun c' rest' h hhead =>
      letter_of_spelled h hx hw (hrest.of_head? hhead)
  | none =>
    refine Or.inr ⟨"Name", fun c' hc' => ?_⟩
    unfold letter
    rw [← hc'.look, hfilter]

/-- Digits depend on the character that ends them, and on the one behind the blanks. -/
theorem decides_digits (c : Cursor) : Decides digits c := by
  have hcut : c.unread = c.unread.takeWhile Char.isDigit ++ c.unread.dropWhile Char.isDigit :=
    List.takeWhile_append_dropWhile.symm
  have hbehind := stopsAt_dropWhile Char.isDigit c.unread
  cases hrun : c.unread.takeWhile Char.isDigit with
  | nil =>
    rw [hrun, List.nil_append] at hcut
    rw [← hcut] at hbehind
    refine Or.inr ⟨"Integer", fun c' hc' => ?_⟩
    have hhead : c'.unread.head? = c.unread.head? := by
      rw [← Cursor.look_eq_head?, ← Cursor.look_eq_head?, hc'.look]
    have hrun' : c'.unread.takeWhile Char.isDigit = [] :=
      takeWhile_of_stopsAt (List.forall_mem_nil _) (hbehind.of_head? hhead)
    unfold digits
    rw [Cursor.takeWhile_eq, hrun']
  | cons d ds =>
    have hdigits : Digits (d :: ds) :=
      ⟨List.cons_ne_nil _ _, hrun ▸ List.all_eq_true.1 List.all_takeWhile⟩
    -- the blanks behind the digits are read, too, and any character may stand behind them
    obtain ⟨w, rest, hw, hrest, hblanks⟩ := exists_blanks (c.unread.dropWhile Char.isDigit)
    rw [hblanks] at hbehind
    rw [hrun, hblanks, ← List.append_assoc] at hcut
    refine decides_of_append (b := String.ofList (d :: ds)) hcut fun c' rest' h hhead => ?_
    have hdigit : StopsAt Char.isDigit (w ++ rest') := by
      refine hbehind.of_head? ?_
      rw [List.head?_append, List.head?_append, hhead]
    rw [List.append_assoc] at h
    rw [List.length_append]
    exact digits_of_run h hdigits hw (hrest.of_head? hhead) hdigit

/-- A line end depends on the character behind a carriage return as well. -/
theorem decides_lineEnd (c : Cursor) : Decides lineEnd c := by
  by_cases hcr : c.look = some '\r'
  · -- with a line feed behind it the line end has two characters
    by_cases hlf : c.advance.look = some '\n'
    · obtain ⟨w, rest, hw, hrest, hunread⟩ := unread_eq_blanks hlf
      have hcut : c.unread = '\r' :: '\n' :: w ++ rest := by
        rw [Cursor.unread_eq_cons hcr, hunread]
        rfl
      exact decides_of_append hcut fun c' rest' h hhead =>
        lineEnd_of_crlf h hw (hrest.of_head? hhead)
    · obtain ⟨w, rest, hw, hrest, hunread⟩ := unread_eq_blanks hcr
      -- in the second text as well the next character is no line feed
      have hnot : (w ++ rest).head? ≠ some '\n' := by
        rw [Cursor.look_eq_head?, Cursor.unread_advance, hunread, List.cons_append,
          List.tail_cons] at hlf
        exact hlf
      refine decides_of_append (b := true) hunread fun c' rest' h hhead => ?_
      refine lineEnd_of_cr h hw (hrest.of_head? hhead) fun x hx => ?_
      rw [List.head?_append, hhead, ← List.head?_append] at hx
      rw [decide_eq_false_iff_not]
      rintro rfl
      exact hnot hx
  · by_cases hlf : c.look = some '\n'
    · obtain ⟨w, rest, hw, hrest, hunread⟩ := unread_eq_blanks hlf
      exact decides_of_append hunread fun c' rest' h hhead =>
        lineEnd_of_lf h hw (hrest.of_head? hhead)
    · refine Or.inl ⟨false, 0, Nat.zero_le _, fun c' hc' => ?_⟩
      exact lineEnd_of_look (hc'.look ▸ hcr) (hc'.look ▸ hlf)

end Lexeme

/-! ## States that are alike -/

variable {σ α β γ : Type}

/-- Two ends of an action: the same answer and states that are alike, or the same fault. -/
def StepsAlike (S : σ → σ → Prop) (E : Fault → σ → σ → Prop) :
    EStateM.Result Fault σ β → EStateM.Result Fault σ β → Prop
  | .ok b s, .ok b' s' => b = b' ∧ S s s'
  | .error fault s, .error fault' s' => fault = fault' ∧ E fault s s'
  | _, _ => False

/-- The steps of the semantics do the same to states that are alike by `S`, wherever the cursor
stands. After a fault the states are alike by `E`. -/
def Clocked.Simulates (m : Clocked σ α) (S : σ → σ → Prop) (E : Fault → σ → σ → Prop) : Prop :=
  ∀ (step : Step α) (c c' : Cursor) {s s' : σ}, (step.isCall = true → m.calls = true) → S s s' →
    StepsAlike S E (m.perform step (m.tick c s)) (m.perform step (m.tick c' s'))

/-- Results that are alike once they are packed were so before. -/
theorem StepsAlike.of_map {S : σ → σ → Prop} {E : Fault → σ → σ → Prop} {action : Action σ β}
    {f : β → γ} (hf : Function.Injective f) {s s' : σ}
    (h : StepsAlike S E ((f <$> action) s) ((f <$> action) s')) :
    StepsAlike S E (action s) (action s') := by
  rw [Action.map_apply, Action.map_apply] at h
  cases hs : action s with
  | ok b t =>
    cases hs' : action s' with
    | ok b' t' =>
      rw [hs, hs'] at h
      exact ⟨hf h.1, h.2⟩
    | error fault' t' => rw [hs, hs'] at h; exact h
  | error fault t =>
    cases hs' : action s' with
    | ok b' t' => rw [hs, hs'] at h; exact h
    | error fault' t' => rw [hs, hs'] at h; exact h

namespace Grammar

/-- Two ends of a run, which have read `n` characters from the two places. -/
inductive EndAlike (S : σ → σ → Prop) (E : Fault → σ → σ → Prop) (n : Nat) (c c' : Cursor) :
    EStateM.Result Fault (Progress σ) β → EStateM.Result Fault (Progress σ) β → Prop
  | ok (b : β) {s s' : σ} (h : S s s') :
      EndAlike S E n c c' (.ok b ⟨c.skip n, s⟩) (.ok b ⟨c'.skip n, s'⟩)
  | missing (what : String) {s s' : σ} (h : S s s') :
      EndAlike S E n c c' (.error ((c.skip n).missing what) ⟨c.skip n, s⟩)
        (.error ((c'.skip n).missing what) ⟨c'.skip n, s'⟩)
  | failed (fault : Fault) {s s' : σ} (h : E fault s s') :
      EndAlike S E n c c' (.error fault ⟨c.skip n, s⟩) (.error fault ⟨c'.skip n, s'⟩)

/-- What is read behind `i` characters, is read behind the `i` and those. -/
theorem EndAlike.of_skip {S : σ → σ → Prop} {E : Fault → σ → σ → Prop} {i n : Nat} {c c' : Cursor}
    {r r' : EStateM.Result Fault (Progress σ) β}
    (h : EndAlike S E n (c.skip i) (c'.skip i) r r') : EndAlike S E (i + n) c c' r r' := by
  cases h with
  | ok b h => rw [← Cursor.skip_add, ← Cursor.skip_add]; exact .ok b h
  | missing what h => rw [← Cursor.skip_add, ← Cursor.skip_add]; exact .missing what h
  | failed fault h => rw [← Cursor.skip_add, ← Cursor.skip_add]; exact .failed fault h

/-- The first run has read as many characters as are said. -/
theorem EndAlike.cursor {S : σ → σ → Prop} {E : Fault → σ → σ → Prop} {n : Nat} {c c' : Cursor}
    {r r' : EStateM.Result Fault (Progress σ) β} (h : EndAlike S E n c c' r r') :
    (Action.ended r).cursor = c.skip n := by
  cases h <;> rfl

/-- The parser reads some characters, and ends alike wherever they and the one behind them stand,
on any state that is like its own. -/
def Simulated (S : σ → σ → Prop) (E : Fault → σ → σ → Prop) (x : Parser σ β) : Prop :=
  ∀ (c : Cursor) (s : σ), ∃ n, n ≤ c.unread.length ∧ (Action.ended (x ⟨c, s⟩)).cursor = c.skip n ∧
    ∀ c' s', c.AlikeFor n c' → S s s' → EndAlike S E n c c' (x ⟨c, s⟩) (x ⟨c', s'⟩)

section

variable {S : σ → σ → Prop} {E : Fault → σ → σ → Prop}

/-- A lexeme that decides reads the same in both texts. -/
theorem simulated_scan {lexeme : Scan β} (h : ∀ c, Decides lexeme c) :
    Simulated S E (scan lexeme : Parser σ β) := by
  intro c s
  rcases h c with ⟨b, n, hn, hok⟩ | ⟨what, herror⟩
  · refine ⟨n, hn, ?_, fun c' s' hc' hs => ?_⟩
    · simp only [scan, hok c (.refl n c)]
      rfl
    · simp only [scan, hok c' hc', hok c (.refl n c)]
      exact .ok b hs
  · refine ⟨0, Nat.zero_le _, ?_, fun c' s' hc' hs => ?_⟩
    · simp only [scan, herror c (.refl 0 c)]
      rfl
    · simp only [scan, herror c' hc', herror c (.refl 0 c)]
      exact .missing (n := 0) what hs

/-- One parser behind another. The second run has to have the characters of both parts, and the one
behind them. -/
theorem Simulated.bind {x : Parser σ β} {f : β → Parser σ γ} (hx : Simulated S E x)
    (hf : ∀ b, Simulated S E (f b)) : Simulated S E (x >>= f) := by
  intro c s
  obtain ⟨n, hn, hend, halike⟩ := hx c s
  cases hresult : x ⟨c, s⟩ with
  | error fault q =>
    rw [hresult] at hend halike
    refine ⟨n, hn, ?_, fun c' s' hc' hs => ?_⟩
    · rw [bind_apply, hresult]
      exact hend
    · have hends := halike c' s' hc' hs
      rw [bind_apply, bind_apply, hresult]
      cases hresult' : x ⟨c', s'⟩ with
      | ok b' q' =>
        rw [hresult'] at hends
        cases hends
      | error fault' q' =>
        rw [hresult'] at hends
        -- the first run has failed, and so has the second, in the same way
        cases hends with
        | missing what h => exact .missing what h
        | failed fault h => exact .failed fault h
  | ok b q =>
    rw [hresult] at hend halike
    obtain ⟨c₁, t⟩ := q
    obtain rfl : c₁ = c.skip n := hend
    -- the second part starts where the first has left off, in both texts
    obtain ⟨k, hk, hend', halike'⟩ := hf b (c.skip n) t
    refine ⟨n + k, ?_, ?_, fun c' s' hc' hs => ?_⟩
    · rw [Cursor.unread_skip, List.length_drop] at hk
      omega
    · rw [bind_apply, hresult, Cursor.skip_add]
      exact hend'
    · have hends := halike c' s' (hc'.mono (Nat.le_add_right n k)) hs
      rw [bind_apply, bind_apply, hresult]
      cases hresult' : x ⟨c', s'⟩ with
      | error fault' q' =>
        rw [hresult'] at hends
        cases hends
      | ok b' q' =>
        rw [hresult'] at hends
        cases hends with
        | @ok _ _ t' ht =>
          exact (halike' (c'.skip n) t' hc'.skip ht).of_skip

variable {m : Clocked σ α}

/-- Whatever is formed runs alike. Induction on the formation, with one case for each lexeme. -/
theorem Formed.simulated (hm : m.Simulates S E) {x : Parser σ β} (h : Formed m x) :
    Simulated S E x := by
  induction h with
  | pure b => exact fun c s => ⟨0, Nat.zero_le _, rfl, fun c' s' _ hs => .ok (n := 0) b hs⟩
  | missing what =>
    exact fun c s => ⟨0, Nat.zero_le _, rfl, fun c' s' _ hs => .missing (n := 0) what hs⟩
  | symbol x => exact simulated_scan (Lexeme.decides_symbol x)
  | letter => exact simulated_scan Lexeme.decides_letter
  | digits => exact simulated_scan Lexeme.decides_digits
  | lineEnd => exact simulated_scan Lexeme.decides_lineEnd
  | @act β step f action hcall hf h =>
    refine fun c s => ⟨0, Nat.zero_le _, ?_, fun c' s' _ hs => ?_⟩
    · unfold Grammar.act
      cases action (m.tick c s) <;> rfl
    · have halike : StepsAlike S E (action (m.tick c s)) (action (m.tick c' s')) := by
        refine StepsAlike.of_map hf ?_
        rw [← h]
        exact hm step c c' hcall hs
      unfold Grammar.act
      generalize action (m.tick c s) = r at halike ⊢
      generalize action (m.tick c' s') = r' at halike ⊢
      cases r with
      | ok b t =>
        cases r' with
        | ok b' t' =>
          obtain ⟨rfl, ht⟩ := halike
          exact .ok (n := 0) b ht
        | error fault' t' => exact halike.elim
      | error fault t =>
        cases r' with
        | ok b' t' => exact halike.elim
        | error fault' t' =>
          obtain ⟨rfl, ht⟩ := halike
          exact .failed (n := 0) fault ht
  | @cursor β f hf hlook ih =>
    intro c s
    obtain ⟨n, hn, hend, halike⟩ := ih c c s
    refine ⟨n, hn, hend, fun c' s' hc' hs => ?_⟩
    -- the same shape is at hand, so the same is chosen
    have hsame : f c' = f c := hlook c' c (Cursor.shape?_congr hc'.look.symm)
    rw [cursor_bind_apply, cursor_bind_apply, hsame]
    exact halike c' s' hc' hs
  | bind hx hf ihx ihf => exact ihx.bind ihf

end

/-! ## Bounds -/

/-- Different numbers of characters lead to different places. -/
theorem eq_of_skip_eq {c : Cursor} {n k : Nat} (hn : n ≤ c.unread.length)
    (hk : k ≤ c.unread.length) (h : c.skip n = c.skip k) : n = k := by
  have hoffset := congrArg Cursor.offset h
  rw [(Cursor.offset_skip hn).1, (Cursor.offset_skip hk).1] at hoffset
  omega

/-- A bound that is never felt is no matter. -/
theorem Simulated.of_bound {S : σ → σ → Prop} {E : Fault → σ → σ → Prop} {x : Nat → Parser σ β}
    {y : Parser σ β} (hx : ∀ n, Simulated S E (x n)) (hy : ∀ n, AgreeUpTo n (x n) y) :
    Simulated S E y := by
  intro c s
  have hat (k : Nat) (c : Cursor) (s : σ) (hk : c.unread.length ≤ k) : x k ⟨c, s⟩ = y ⟨c, s⟩ :=
    hy k hk
  obtain ⟨n, hn, hend, -⟩ := hx c.unread.length c s
  rw [hat _ c s (Nat.le_refl _)] at hend
  refine ⟨n, hn, hend, fun c' s' hc' hs => ?_⟩
  -- one bound for both texts; with it as many characters are read as with the first
  have hle := Nat.le_max_left c.unread.length c'.unread.length
  have hle' := Nat.le_max_right c.unread.length c'.unread.length
  obtain ⟨k, hk, hend', halike⟩ := hx (max c.unread.length c'.unread.length) c s
  rw [hat _ c s hle] at hend' halike
  obtain rfl : n = k := eq_of_skip_eq hn hk (hend.symm.trans hend')
  rw [← hat _ c' s' hle']
  exact halike c' s' hc' hs

theorem simulated_statement {m : Clocked σ α} {S : σ → σ → Prop} {E : Fault → σ → σ → Prop}
    (hm : m.Simulates S E) : Simulated S E (statement m) :=
  .of_bound (fun n => (formed_statementWithin n).simulated hm) fun _ =>
    agreeUpTo_statement m (Nat.le_refl _)

theorem simulated_program {m : Clocked σ α} {S : σ → σ → Prop} {E : Fault → σ → σ → Prop}
    (hm : m.Simulates S E) : Simulated S E (program m) :=
  .of_bound (fun n => (formed_programWithin n).simulated hm) fun _ =>
    agreeUpTo_program m (Nat.le_refl _)

end Grammar

end OnePass
