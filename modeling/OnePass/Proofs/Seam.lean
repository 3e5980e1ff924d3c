import OnePass.Proofs.Reading.Completion
import OnePass.Proofs.Rounds

/-!
# Texts that begin with the same lines

Two texts begin with the same complete lines, and what comes behind these lines, behind the *seam*,
is different. A statement is written on one line, so it ends before the seam if it begins before it;
the end of its line may be the last line feed before the seam, and then the blanks behind the seam
belong to it. So a program that is read from both texts either stops before the seam, in both alike,
or it comes to the seam in both, with states that are alike (`program_seam`).
-/

namespace OnePass

/-! ## Beginnings -/

/-- Before the seam the texts show the same characters. -/
theorem alikeFor_of_append {c c' : Cursor} {u x y : List Char} {n : Nat} (h : c.unread = u ++ x)
    (h' : c'.unread = u ++ y) (hn : n < u.length) : c.AlikeFor n c' := by
  rw [Cursor.AlikeFor, h, h', List.take_append_of_le_length hn, List.take_append_of_le_length hn]

/-- A beginning without the character ends before the first one. -/
theorem length_lt_of_not_mem {u x t rest : List Char} {a : Char} (h : u ++ x = t ++ rest)
    (hu : a ∈ u) (ht : a ∉ t) : t.length < u.length := by
  by_contra hle
  have hfirst : u <+: t ++ rest := ⟨x, h⟩
  have hwithin : u <+: t :=
    List.prefix_of_prefix_length_le hfirst (List.prefix_append t rest) (Nat.le_of_not_lt hle)
  exact ht (hwithin.subset hu)

/-- The text is one line or more, and the last one is complete. -/
def Lines (u : List Char) : Prop := u.getLast? = some '\n'

theorem Lines.mem {u : List Char} (h : Lines u) : '\n' ∈ u := List.mem_of_getLast? h

/-- Some of the characters may be left out in front, as long as not all are. -/
theorem Lines.drop {u : List Char} (h : Lines u) {n : Nat} (hn : n < u.length) :
    Lines (u.drop n) := by
  rw [Lines, List.getLast?_drop, if_neg (by omega)]
  exact h

theorem Lines.of_cons {a : Char} {u : List Char} (h : Lines (a :: u)) (hu : u ≠ []) : Lines u := by
  have hdrop := h.drop (n := 1) (by
    rw [List.length_cons]
    have := List.length_pos_iff.2 hu
    omega)
  exact hdrop

/-- A line feed is no blank. -/
theorem Blanks.newline_not_mem {w : List Char} (hw : Blanks w) : '\n' ∉ w := fun h =>
  absurd (hw.isWritten _ h) (by decide)

/-! ## The end of a line -/

/-- At a line feed the line ends, and the blanks behind belong to the end. -/
theorem lineEnd_of_newline {c : Cursor} {rest : List Char} (h : c.unread = '\n' :: rest) :
    Lexeme.lineEnd c = .ok true (c.skip 1).skipBlanks := by
  simp only [Lexeme.lineEnd, Cursor.look_of_unread h]
  rfl

/-- A carriage return and a line feed are one end. -/
theorem lineEnd_of_return_newline {c : Cursor} {rest : List Char}
    (h : c.unread = '\r' :: '\n' :: rest) :
    Lexeme.lineEnd c = .ok true (c.skip 2).skipBlanks := by
  have hadvance : c.advance.unread = '\n' :: rest := by
    rw [Cursor.unread_advance, h, List.tail_cons]
  simp only [Lexeme.lineEnd, Cursor.look_of_unread h, Cursor.isAt_of_unread hadvance, if_true]
  rfl

/-- Lines that the blanks behind a line feed begin with are none. -/
theorem eq_nil_of_prefix_blanks {a : Char} {v w : List Char} (h : Lines (a :: v)) (hv : v <+: w)
    (hw : Blanks w) : v = [] := by
  by_contra hne
  exact hw.newline_not_mem (hv.subset (h.of_cons hne).mem)

/-- The end of a line that covers the lines is the last thing of them. -/
theorem LineEnd.covers {v e : List Char} (he : LineEnd e) (hv : Lines v) (h : v <+: e) :
    v = ['\n'] ∨ v = ['\r', '\n'] := by
  cases he with
  | none =>
    rw [List.prefix_nil.1 h] at hv
    cases hv
  | cr hw =>
    have hmem := h.subset hv.mem
    rw [List.mem_cons] at hmem
    -- a line feed is neither a carriage return nor one of the blanks behind
    rcases hmem with heq | hmem
    · exact absurd heq (by decide)
    · exact absurd hmem hw.newline_not_mem
  | lf hw =>
    cases v with
    | nil => cases hv
    | cons a v =>
      obtain ⟨rfl, hv'⟩ := List.cons_prefix_cons.1 h
      rw [eq_nil_of_prefix_blanks hv hv' hw]
      exact .inl rfl
  | crlf hw =>
    cases v with
    | nil => cases hv
    | cons a v =>
      obtain ⟨rfl, hv'⟩ := List.cons_prefix_cons.1 h
      cases v with
      | nil => exact absurd hv (by simp [Lines])
      | cons b v =>
        obtain ⟨rfl, hv''⟩ := List.cons_prefix_cons.1 hv'
        rw [eq_nil_of_prefix_blanks (hv.of_cons (List.cons_ne_nil _ _)) hv'' hw]
        exact .inr rfl

/-- A line ends before the seam, or with the line feed that the seam comes behind. -/
theorem lineEnd_seam {c c' : Cursor} {v x y : List Char} (h : c.unread = v ++ x)
    (h' : c'.unread = v ++ y) (hv : Lines v) :
    (∃ k seen, k < v.length ∧ Lexeme.lineEnd c = .ok seen (c.skip k) ∧
        Lexeme.lineEnd c' = .ok seen (c'.skip k)) ∨
      ∃ seen, Lexeme.lineEnd c = .ok seen (c.skip v.length).skipBlanks ∧
        Lexeme.lineEnd c' = .ok seen (c'.skip v.length).skipBlanks := by
  rcases Lexeme.decides_lineEnd c with ⟨seen, k, hk, hok⟩ | ⟨what, herror⟩
  · have hread := hok c (.refl k c)
    by_cases hlt : k < v.length
    · exact .inl ⟨k, seen, hlt, hread, hok c' (alikeFor_of_append h h' hlt)⟩
    · -- the end of the line reaches the seam, so the last line feed before the seam is part of it
      obtain ⟨e, he, hreads⟩ := Lexeme.reads_of_lineEnd hread
      have hle : e.length ≤ c.unread.length := by
        rw [hreads.unread, List.length_append]
        exact Nat.le_add_right _ _
      obtain rfl : k = e.length := Grammar.eq_of_skip_eq hk hle hreads.eq_skip
      have hlines : v <+: c.unread := ⟨x, h.symm⟩
      have hwithin : v <+: e := List.prefix_of_prefix_length_le hlines
        ⟨_, hreads.unread.symm⟩ (Nat.le_of_not_lt hlt)
      refine .inr ⟨true, ?_⟩
      rcases he.covers hv hwithin with rfl | rfl
      · exact ⟨lineEnd_of_newline h, lineEnd_of_newline h'⟩
      · exact ⟨lineEnd_of_return_newline h, lineEnd_of_return_newline h'⟩
  · have hread := herror c (.refl 0 c)
    unfold Lexeme.lineEnd at hread
    split at hread <;> cases hread

namespace Grammar

variable {σ α : Type} {m : Clocked σ α}

/-- A statement reads on, and never over a line feed. -/
theorem reads_statement (p : Progress σ) :
    ∃ t, '\n' ∉ t ∧ p.cursor.Reads t (Action.ended (statement m p)).cursor := by
  have hbegins := begins_statement (m := m) p
  cases hstatement : statement m p with
  | ok b q =>
    rw [hstatement] at hbegins
    cases hbegins with
    | ok ht hreads =>
      obtain ⟨s, hs⟩ := ht
      exact ⟨_, hs.newline_not_mem, hreads⟩
  | error fault q =>
    rw [hstatement] at hbegins
    cases hbegins with
    | error ht hreads =>
      obtain ⟨s, hs⟩ := ht
      exact ⟨_, fun hmem => hs.newline_not_mem (List.mem_append_left _ hmem), hreads⟩

/-- A statement leads on by reading and steps. -/
theorem led_statement (p : Progress σ) : Led m p (Action.ended (statement m p)) :=
  fun _ hR => (formed_statementWithin p.left).leads hR p

theorem StatementLine.led {p q : Progress σ} (h : StatementLine m p q) : Led m p q := by
  obtain ⟨r, seen, hstatement, hline⟩ := h
  have hled := led_statement (m := m) p
  rw [hstatement] at hled
  refine hled.trans fun R hR => ?_
  have hleads := leads_scan hR Lexeme.readsOn_lineEnd r
  rwa [hline] at hleads

theorem Rounds.led {p q : Progress σ} (h : Rounds m p q) : Led m p q := by
  induction h with
  | refl => exact fun R hR => hR.refl p
  | tail _ hround ih => exact ih.trans hround.1.led

/-- To go on behind a line is to stop, or to run a program. -/
theorem leads_goOn {R : Progress σ → Progress σ → Prop} (hm : m.Leads R) (p : Progress σ) :
    R p (Action.ended (goOn m p)) := by
  unfold goOn
  split
  · exact hm.refl p
  · exact leads_program hm p

/-! ## Programs -/

variable {S : σ → σ → Prop} {E : Fault → σ → σ → Prop}

/-- What two programs come to whose texts have the lines `u` before the seam. -/
inductive Seam (m : Clocked σ α) (S : σ → σ → Prop) (E : Fault → σ → σ → Prop) (u : List Char)
    (c c' : Cursor) (s s' : σ) : Prop where
  /-- Both stop before the seam, alike. -/
  | before (n : Nat) (hn : n < u.length)
      (h : EndAlike S E n c c' (program m ⟨c, s⟩) (program m ⟨c', s'⟩))
  /-- Both come to the seam, and go on behind the blanks there. -/
  | through (n : Nat) (hn : n < u.length) {t t' : σ} (ht : S t t')
      (hled : Led m ⟨c, s⟩ ⟨c.skip n, t⟩)
      (h : program m ⟨c, s⟩ = goOn m ⟨(c.skip u.length).skipBlanks, t⟩)
      (h' : program m ⟨c', s'⟩ = goOn m ⟨(c'.skip u.length).skipBlanks, t'⟩)

/-- A seam that is seen from behind the first characters. -/
theorem Seam.of_skip {u : List Char} {c c' : Cursor} {s s' t t' : σ} {i : Nat}
    (hseam : Seam m S E (u.drop i) (c.skip i) (c'.skip i) t t') (hled : Led m ⟨c, s⟩ ⟨c.skip i, t⟩)
    (h : program m ⟨c, s⟩ = program m ⟨c.skip i, t⟩)
    (h' : program m ⟨c', s'⟩ = program m ⟨c'.skip i, t'⟩) : Seam m S E u c c' s s' := by
  cases hseam with
  | before n hn hend =>
    rw [List.length_drop] at hn
    refine .before (i + n) (by omega) ?_
    rw [h, h']
    exact hend.of_skip
  | @through n hn r r' hr hled' hgo hgo' =>
    -- places behind the first characters, counted from the start
    rw [List.length_drop] at hn hgo hgo'
    have hlength : i + (u.length - i) = u.length := by omega
    rw [← Cursor.skip_add, hlength] at hgo hgo'
    rw [← Cursor.skip_add] at hled'
    exact .through (i + n) (by omega) hr (hled.trans hled') (h.trans hgo) (h'.trans hgo')

/-- A statement and the end of its line, put together. -/
theorem statementLine_of {c c₁ c₂ : Cursor} {s t : σ} {seen : Bool}
    (hstatement : statement m ⟨c, s⟩ = .ok () ⟨c₁, t⟩) (hline : Lexeme.lineEnd c₁ = .ok seen c₂) :
    StatementLine m ⟨c, s⟩ ⟨c₂, t⟩ := by
  refine ⟨⟨c₁, t⟩, seen, hstatement, ?_⟩
  simp only [scan, hline]

/-- Behind the same characters there is the same text up to the seam. -/
theorem unread_skip_seam {c : Cursor} {u x : List Char} (h : c.unread = u ++ x) {k : Nat}
    (hk : k ≤ u.length) : (c.skip k).unread = u.drop k ++ x := by
  rw [Cursor.unread_skip, h, List.drop_append_of_le_length hk]

/-- One statement and the end of its line: they settle what the programs come to, or lead on to the
same place before the seam. -/
theorem statement_seam (hm : m.Simulates S E) {u x y : List Char} (hu : Lines u) {c c' : Cursor}
    (h : c.unread = u ++ x) (h' : c'.unread = u ++ y) {s s' : σ} (hs : S s s') :
    Seam m S E u c c' s s' ∨
      ∃ k t t', k < u.length ∧ S t t' ∧ Led m ⟨c, s⟩ ⟨c.skip k, t⟩ ∧
        StatementLine m ⟨c, s⟩ ⟨c.skip k, t⟩ ∧ StatementLine m ⟨c', s'⟩ ⟨c'.skip k, t'⟩ := by
  obtain ⟨n, hn, hend, halike⟩ := simulated_statement hm c s
  obtain ⟨t, ht, hreads⟩ := reads_statement (m := m) ⟨c, s⟩
  have hle : t.length ≤ c.unread.length := by
    rw [show c.unread = _ from hreads.unread, List.length_append]
    exact Nat.le_add_right _ _
  -- what the statement has looked at is what it has read
  obtain rfl : n = t.length := eq_of_skip_eq hn hle (hend.symm.trans hreads.eq_skip)
  -- the statement is on one line, so it stops before the line feed at the seam
  have hlt : t.length < u.length := length_lt_of_not_mem (h.symm.trans hreads.unread) hu.mem ht
  have hstatement := halike c' s' (alikeFor_of_append h h' hlt) hs
  have hled := led_statement (m := m) ⟨c, s⟩
  cases hfirst : statement m ⟨c, s⟩ with
  | error fault q =>
    cases hsecond : statement m ⟨c', s'⟩ with
    | ok _ q' =>
      rw [hfirst, hsecond] at hstatement
      cases hstatement
    | error fault' q' =>
      rw [hfirst, hsecond] at hstatement
      refine .inl (.before t.length hlt ?_)
      rw [program_of_statement_error hfirst, program_of_statement_error hsecond]
      exact hstatement
  | ok _ q =>
    cases hsecond : statement m ⟨c', s'⟩ with
    | error fault' q' =>
      rw [hfirst, hsecond] at hstatement
      cases hstatement
    | ok _ q' =>
      rw [hfirst] at hled
      rw [hfirst, hsecond] at hstatement
      cases hstatement with
      | @ok _ r r' hr =>
        -- the line ends before the seam, and then the programs lead on, or at it
        rcases lineEnd_seam (unread_skip_seam h hlt.le) (unread_skip_seam h' hlt.le)
          (hu.drop hlt) with ⟨k, seen, hk, hline, hline'⟩ | ⟨seen, hline, hline'⟩
        · rw [← Cursor.skip_add] at hline hline'
          rw [List.length_drop] at hk
          have hread := statementLine_of hfirst hline
          exact .inr ⟨t.length + k, r, r', by omega, hr, hread.led, hread,
            statementLine_of hsecond hline'⟩
        · have hseam : t.length + (u.drop t.length).length = u.length := by
            rw [List.length_drop]
            omega
          rw [← Cursor.skip_add, hseam] at hline hline'
          exact .inl (.through t.length hlt hr hled
            (program_of_line (statementLine_of hfirst hline))
            (program_of_line (statementLine_of hsecond hline')))

/-- Where the texts begin with the same lines, and the states are alike, two programs stop alike
before the seam, or come to it. -/
theorem program_seam (hm : m.Simulates S E) {u x y : List Char} (hu : Lines u) {c c' : Cursor}
    (h : c.unread = u ++ x) (h' : c'.unread = u ++ y) {s s' : σ} (hs : S s s') :
    Seam m S E u c c' s s' := by
  induction hlength : u.length using Nat.strongRecOn generalizing u c c' s s' with
  | ind l ih =>
    rcases statement_seam hm hu h h' hs with hseam | ⟨k, t, t', hk, ht, hled, hline, hline'⟩
    · exact hseam
    · have hbehind := unread_skip_seam h hk.le
      have hbehind' := unread_skip_seam h' hk.le
      have hlook := Cursor.AlikeFor.look (n := 0) (alikeFor_of_append hbehind hbehind' (by
        rw [List.length_drop]
        omega))
      -- both are at the same character, which is before the seam
      cases hat : (c.skip k).isAt ';' with
      | true =>
        have hat' : (c'.skip k).isAt ';' = true := by
          rw [← hat, Cursor.isAt_congr (Cursor.shape?_congr hlook) ';']
        refine .before k hk ?_
        rw [program_of_line hline, program_of_line hline', goOn_eq_ok hat, goOn_eq_ok hat']
        exact .ok () ht
      | false =>
        have hat' : (c'.skip k).isAt ';' = false := by
          rw [← hat, Cursor.isAt_congr (Cursor.shape?_congr hlook) ';']
        have hshorter := hline.left_lt
        simp only [Progress.left, Cursor.unread_skip, List.length_drop] at hshorter
        -- a further statement, with less left of the lines
        have hrest := ih (u.drop k).length (by rw [List.length_drop]; omega) (hu.drop hk)
          hbehind hbehind' ht rfl
        refine hrest.of_skip hled ?_ ?_
        · rw [program_of_line hline, goOn_eq_program hat]
        · rw [program_of_line hline', goOn_eq_program hat']

end Grammar

end OnePass
