import OnePass.Proofs.Reading.Simulation

/-!
# How far reading looks

A parser looks at the characters that it reads and at the one behind them, and at nothing else of
the text. So where two texts are alike that far (`Cursor.SameFor`), it does the same at both and
stops at the same place (`local_program`); and where a semantics never fails, it fails by blaming
the character it has stopped at (`blames_program`).
-/

namespace OnePass

/-! ## Texts that are alike so far -/

/-- The cursors are at the same offset. The next `n` characters are the same, and so is the one
behind them, if there is one. -/
structure Cursor.SameFor (n : Nat) (c c' : Cursor) : Prop where
  offset : c'.offset = c.offset
  unread : c'.unread.take (n + 1) = c.unread.take (n + 1)

namespace Cursor.SameFor

variable {n k : Nat} {c c' : Cursor}

theorem alike (h : SameFor n c c') : AlikeFor n c c' := h.unread

theorem refl (n : Nat) (c : Cursor) : SameFor n c c := ⟨rfl, rfl⟩

/-- Cursors that are alike for more characters are alike for fewer. -/
theorem mono (h : SameFor n c c') (hk : k ≤ n) : SameFor k c c' := ⟨h.offset, h.alike.mono hk⟩

theorem look (h : SameFor n c c') : c.look = c'.look := h.alike.look

/-- Behind some characters fewer are known to be the same. -/
theorem skip (h : SameFor (n + k) c c') (hn : n ≤ c.unread.length) :
    SameFor k (c.skip n) (c'.skip n) := by
  refine ⟨?_, h.alike.skip⟩
  have hn' := (h.alike.mono (Nat.le_add_right n k)).length_le hn
  rw [(offset_skip hn).1, (offset_skip hn').1, h.offset]

/-- What the text begins with, if that was read, and the character behind it. -/
theorem unread_append {t rest : List Char} (h : SameFor t.length c c') (ht : c.unread = t ++ rest) :
    ∃ rest', c'.unread = t ++ rest' ∧ rest'.head? = rest.head? := h.alike.unread_append ht

/-- The fault that blames the character at hand is the same. -/
theorem missing (h : SameFor n c c') (what : String) : c'.missing what = c.missing what := by
  rw [Cursor.missing, Cursor.missing, Cursor.column, Cursor.column, h.look, h.offset]

end Cursor.SameFor

namespace Grammar

variable {σ α β : Type}

/-! ## Parsers -/

/-- The same end of a run at another place. -/
def placed (c : Cursor) :
    EStateM.Result Fault (Progress σ) β → EStateM.Result Fault (Progress σ) β
  | .ok b q => .ok b { q with cursor := c }
  | .error fault q => .error fault { q with cursor := c }

/-- The parser reads some characters, and it does the same wherever they and the one behind them
stand at the same offset. -/
def Local (x : Parser σ β) : Prop :=
  ∀ (c : Cursor) (s : σ), ∃ n, n ≤ c.unread.length ∧
    ∀ c', c.SameFor n c' → x ⟨c', s⟩ = placed (c'.skip n) (x ⟨c, s⟩)

/-- Ends that are alike are the same where the places are at the same offset. -/
theorem Simulated.local {x : Parser σ β} (h : Simulated (· = ·) (fun _ => (· = ·)) x) :
    Local x := by
  intro c s
  obtain ⟨n, hn, -, halike⟩ := h c s
  refine ⟨n, hn, fun c' hc' => ?_⟩
  -- from the same state, alike means the same
  have hends := halike c' s hc'.alike rfl
  generalize x ⟨c, s⟩ = r at hends ⊢
  generalize x ⟨c', s⟩ = r' at hends ⊢
  cases hends with
  | ok b hs => rw [hs]; rfl
  | missing what hs =>
    -- the blame depends on the character at hand, which is known as well
    have hbehind : (c.skip n).SameFor 0 (c'.skip n) :=
      Cursor.SameFor.skip (k := 0) hc' hn
    rw [hs, hbehind.missing]
    rfl
  | failed fault hs => rw [hs]; rfl

/-- A semantics that knows no places does the same everywhere. -/
theorem timeless_simulates (m : Semantics σ α) :
    m.timeless.Simulates (· = ·) fun _ => (· = ·) := by
  rintro step c c' s _ - rfl
  show StepsAlike _ _ (m.perform step s) (m.perform step s)
  cases m.perform step s with
  | ok b t => exact ⟨rfl, rfl⟩
  | error fault t => exact ⟨rfl, rfl⟩

/-- A run that is placed at a cursor ends there. -/
theorem cursor_of_placed {c : Cursor} {r : EStateM.Result Fault (Progress σ) β}
    (h : r = placed c r) : (Action.ended r).cursor = c := by
  rw [h]
  cases r <;> rfl

/-! ## Blame -/

/-- A parser that fails blames the character at hand. -/
def Blames (x : Parser σ β) : Prop :=
  ∀ p fault q, x p = .error fault q → ∃ what, fault = q.cursor.missing what

/-- A lexeme that is missing blames the character at hand. -/
theorem blames_scan {lexeme : Scan β} (h : ∀ c, Decides lexeme c) :
    Blames (scan lexeme : Parser σ β) := by
  intro p fault q herror
  unfold scan at herror
  rcases h p.cursor with ⟨b, n, -, hok⟩ | ⟨what, hmissing⟩
  · simp only [hok p.cursor (.refl n _)] at herror
    cases herror
  · simp only [hmissing p.cursor (.refl 0 _)] at herror
    cases herror
    exact ⟨what, rfl⟩

/-- Whichever of the two parsers fails blames where it stands. -/
theorem Blames.bind {γ : Type} {x : Parser σ β} {f : β → Parser σ γ} (hx : Blames x)
    (hf : ∀ b, Blames (f b)) : Blames (x >>= f) := by
  intro p fault q herror
  rw [bind_apply] at herror
  -- whichever of the two has failed
  cases hresult : x p with
  | error fault' q' =>
    rw [hresult] at herror
    cases herror
    exact hx p fault q hresult
  | ok b q' =>
    rw [hresult] at herror
    exact hf b q' fault q herror

/-- Where no step fails, there is nothing to blame but the text. -/
theorem Formed.blames {m : Semantics σ α} (hm : m.NeverFails) {x : Parser σ β}
    (h : Formed m.timeless x) : Blames x := by
  induction h with
  | pure b => exact fun p fault q herror => nomatch herror
  | missing what =>
    rintro p _ _ ⟨rfl, rfl⟩
    exact ⟨what, rfl⟩
  | symbol x => exact blames_scan (Lexeme.decides_symbol x)
  | letter => exact blames_scan Lexeme.decides_letter
  | digits => exact blames_scan Lexeme.decides_digits
  | lineEnd => exact blames_scan Lexeme.decides_lineEnd
  | @act β step f action hcall hf h =>
    intro p fault q herror
    -- a step does not fail, so a fault is never its own
    obtain ⟨answer, s, hok⟩ := hm step p.state hcall
    have hmap : (f <$> action) p.state = .ok answer s := by
      rw [← h]
      exact hok
    obtain ⟨b, s', haction⟩ := exists_ok_of_map ⟨answer, s, hmap⟩
    rw [act_timeless_apply, haction] at herror
    cases herror
  | cursor hf hlook ih => exact fun p => ih p.cursor p
  | bind hx hf ihx ihf => exact ihx.bind ihf

/-! ## Programs -/

/-- A program looks no further than the character it stops at. -/
theorem local_program (m : Semantics σ α) : Local (program m.timeless) :=
  (simulated_program (timeless_simulates m)).local

/-- With a semantics that never fails, a program blames where it stands. -/
theorem blames_program {m : Semantics σ α} (hm : m.NeverFails) : Blames (program m.timeless) :=
  fun p => (formed_programWithin p.left).blames hm p

end Grammar

end OnePass
