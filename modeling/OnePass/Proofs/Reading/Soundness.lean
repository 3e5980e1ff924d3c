import OnePass.Proofs.Reading.Completeness

/-!
# What is read spells a tree

A production that succeeds has read a text that spells a tree of the production's level, and has
done to the semantics what the tree does (`construct_recognises`, `statement_recognises`,
`program_recognises`). Nothing is assumed of the semantics: a production that fails, for whatever
reason, says nothing here.

The loops accumulate their trees. So the statement about a loop starts from a tree that has been
read already and grows it by one operator a round (`constructAfter_recognises`), and the induction
is on the number of characters left, which the parentheses of a factor consume.
-/

namespace OnePass.Grammar

variable {σ α β : Type}

/-! ## Steps that succeeded -/

/-- If two parsers in a row succeed, each of them does. -/
theorem bind_eq_ok {x : Parser σ α} {f : α → Parser σ β} {p q : Progress σ} {b : β}
    (h : (x >>= f) p = .ok b q) : ∃ a p', x p = .ok a p' ∧ f a p' = .ok b q := by
  rw [bind_apply] at h
  split at h
  · next a p' hx => exact ⟨a, p', hx, h⟩
  · cases h

/-- A step that succeeds has read nothing. -/
theorem act_eq_ok {m : Semantics σ α} {action : Action σ β} {p q : Progress σ} {b : β}
    (h : act m.timeless action p = .ok b q) :
    q.cursor = p.cursor ∧ action p.state = .ok b q.state := by
  rw [act_timeless_apply] at h
  split at h
  · next b' s' hs =>
    cases h
    exact ⟨rfl, hs⟩
  · cases h

theorem scan_eq_ok {lexeme : Scan β} {p q : Progress σ} {b : β} (h : scan lexeme p = .ok b q) :
    lexeme p.cursor = .ok b q.cursor ∧ q.state = p.state := by
  unfold scan at h
  split at h
  · next b' c' hc =>
    cases h
    exact ⟨hc, rfl⟩
  · cases h

/-- An action that succeeds hands its answer and its state to the next one. -/
theorem action_bind_of_ok {y : Action σ α} {g : α → Action σ β} {s s' : σ} {a : α}
    (h : y s = .ok a s') : (y >>= g) s = g a s' := by
  show EStateM.bind y g s = g a s'
  unfold EStateM.bind
  rw [h]

/-- Behind an action that fails nothing is done. -/
theorem action_bind_of_error {y : Action σ α} {g : α → Action σ β} {s s' : σ} {fault : Fault}
    (h : y s = .error fault s') : (y >>= g) s = .error fault s' := by
  show EStateM.bind y g s = .error fault s'
  unfold EStateM.bind
  rw [h]

theorem left_of_reads {p q : Progress σ} {s : List Char} (h : p.cursor.Reads s q.cursor) :
    p.left = s.length + q.left := by
  rw [Progress.left, h.unread, List.length_append]
  rfl

/-! ## Expressions -/

/-- Between the two positions the tree was read and driven, and it gave the value. -/
structure Recognised (m : Semantics σ α) (level : Level) (p q : Progress σ) (v : α) (e : Expr)
    (s : List Char) : Prop where
  spelled : Expr.Spelled m.calls level e s
  reads : p.cursor.Reads s q.cursor
  drive : e.drive m p.state = .ok v q.state

/-- On a text of at most `n` characters, what the production of the level reads is recognised. -/
def RecognisesUpTo (m : Semantics σ α) (n : Nat) (level : Level) : Prop :=
  ∀ ⦃p q : Progress σ⦄ ⦃v : α⦄, p.left ≤ n → construct m.timeless level p = .ok v q →
    ∃ e s, Recognised m level p q v e s

/-- One round of a loop that succeeded: an operator, an operand, and the rounds that follow. -/
theorem round_recognises {m : Semantics σ α} {n : Nat} {level : Level} {op : Operator} {lhs v : α}
    {p q : Progress σ} (hx : RecognisesUpTo m n level.operand) (hp : p.left ≤ n)
    (h : (do
      let held ← act m.timeless (m.hold lhs)
      scan (Lexeme.symbol op.toChar)
      let rhs ← construct m.timeless level.operand
      let value ← act m.timeless (m.combine op held rhs)
      constructAfter m.timeless level value) p = .ok v q) :
    ∃ (r : Expr) (w t : List Char) (value : α) (p' : Progress σ),
      Expr.Spelled m.calls level.operand r t ∧ Blanks w ∧
      p.cursor.Reads (op.toChar :: (w ++ t)) p'.cursor ∧
      (do
        let held ← m.hold lhs
        let right ← r.drive m
        m.combine op held right) p.state = .ok value p'.state ∧
      constructAfter m.timeless level value p' = .ok v q := by
  obtain ⟨held, p₁, hhold, h⟩ := bind_eq_ok h
  obtain ⟨_, p₂, hsymbol, h⟩ := bind_eq_ok h
  obtain ⟨rhs, p₃, hoperand, h⟩ := bind_eq_ok h
  obtain ⟨value, p₄, hcombine, h⟩ := bind_eq_ok h
  obtain ⟨hcursor₁, hhold⟩ := act_eq_ok hhold
  obtain ⟨hsymbol, hstate₂⟩ := scan_eq_ok hsymbol
  obtain ⟨hcursor₄, hcombine⟩ := act_eq_ok hcombine
  obtain ⟨w, hw, hreads⟩ := Lexeme.reads_of_symbol hsymbol
  rw [hcursor₁] at hreads
  -- the operator is gone, so the operand is read from a shorter text
  have hleft := left_of_reads (p := p) (q := p₂) hreads
  obtain ⟨r, t, hr⟩ := hx (by omega) hoperand
  refine ⟨r, w, t, value, p₄, hr.spelled, hw, ?_, ?_, h⟩
  · rw [hcursor₄]
    exact hreads.trans hr.reads
  · have hdrive := hr.drive
    rw [hstate₂] at hdrive
    rw [action_bind_of_ok hhold, action_bind_of_ok hdrive]
    exact hcombine

/-- A tree takes in an operator and the operand on its right. -/
theorem Recognised.round {m : Semantics σ α} {level : Level} {op : Operator} {e r : Expr}
    {s t w : List Char} {lhs value : α} {p₀ p p' : Progress σ}
    (he : Recognised m level p₀ p lhs e s) (hop : level.admits op = true)
    (hr : Expr.Spelled m.calls level.operand r t) (hw : Blanks w)
    (hreads : p.cursor.Reads (op.toChar :: (w ++ t)) p'.cursor)
    (hdrive : (do
      let held ← m.hold lhs
      let right ← r.drive m
      m.combine op held right) p.state = .ok value p'.state) :
    Recognised m level p₀ p' value (.binary op e r) (s ++ op.toChar :: (w ++ t)) := by
  refine ⟨.binary hop he.spelled hr hw, he.reads.trans hreads, ?_⟩
  rw [Expr.drive, action_bind_of_ok he.drive]
  exact hdrive

/-- A loop that succeeds has grown the tree that was read before it. -/
theorem constructAfter_recognises {m : Semantics σ α} {n : Nat} {level : Level}
    (hx : RecognisesUpTo m n level.operand) {k : Nat} (hk : k ≤ n) :
    ∀ {p₀ p q : Progress σ} {lhs v : α} {e : Expr} {s : List Char}, p.left ≤ k →
      Recognised m level p₀ p lhs e s → constructAfter m.timeless level lhs p = .ok v q →
      ∃ e' s', Recognised m level p₀ q v e' s' := by
  induction k using Nat.strongRecOn with
  | ind k ih =>
    intro p₀ p q lhs v e s hp he h
    rw [constructAfter_eq, cursor_bind_apply] at h
    cases hop : p.cursor.operator?.filter level.admits with
    | none =>
      rw [hop] at h
      cases h
      exact ⟨e, s, he⟩
    | some op =>
      rw [hop] at h
      obtain ⟨r, w, t, value, p', hr, hw, hreads, hdrive, h⟩ := round_recognises hx (by omega) h
      -- the tree takes the operand in, and the rest of the loop has fewer characters left
      have hgrown := he.round (Option.filter_eq_some_iff.1 hop).2 hr hw hreads hdrive
      have hleft := left_of_reads hreads
      rw [List.length_cons] at hleft
      exact ih p'.left (by omega) (by omega) (Nat.le_refl _) hgrown h

/-- A name is a variable, or a call where there are calls and parentheses follow. -/
theorem reference_recognises {m : Semantics σ α} {p q : Progress σ} {v : α}
    (h : reference m.timeless p = .ok v q) : ∃ e s, Recognised m .factor p q v e s := by
  obtain ⟨name, p₁, hname, h⟩ := bind_eq_ok h
  obtain ⟨hname, hstate₁⟩ := scan_eq_ok hname
  obtain ⟨x, u, hx, rfl, hu, hreads₁⟩ := Lexeme.reads_of_letter hname
  rw [cursor_bind_apply] at h
  split at h
  · next hcalls =>
    obtain ⟨_, p₂, hopen, h⟩ := bind_eq_ok h
    obtain ⟨_, p₃, hclose, h⟩ := bind_eq_ok h
    obtain ⟨hopen, hstate₂⟩ := scan_eq_ok hopen
    obtain ⟨hclose, hstate₃⟩ := scan_eq_ok hclose
    obtain ⟨hcursor, hcall⟩ := act_eq_ok h
    obtain ⟨w, hw, hreads₂⟩ := Lexeme.reads_of_symbol hopen
    obtain ⟨w', hw', hreads₃⟩ := Lexeme.reads_of_symbol hclose
    -- the name, the `(` and the `)` were read one behind the other
    have hreads := hreads₁.trans (hreads₂.trans hreads₃)
    refine ⟨.call (nameOf x), _, .call (Bool.and_eq_true_iff.1 hcalls).1 hx hu hw hw', ?_, ?_⟩
    · rw [hcursor]
      exact hreads
    · rw [hstate₃, hstate₂, hstate₁] at hcall
      exact hcall
  · obtain ⟨hcursor, hload⟩ := act_eq_ok h
    refine ⟨.var (nameOf x), x :: u, .var hx hu, ?_, ?_⟩
    · rw [hcursor]
      exact hreads₁
    · rw [hstate₁] at hload
      exact hload

/-- Digits are recognised as a literal. -/
theorem number_recognises {m : Semantics σ α} {p q : Progress σ} {v : α}
    (h : (do
      let digits ← scan Lexeme.digits
      act m.timeless (m.number digits)) p = .ok v q) :
    ∃ e s, Recognised m .factor p q v e s := by
  obtain ⟨digits, p₁, hdigits, h⟩ := bind_eq_ok h
  obtain ⟨hdigits, hstate⟩ := scan_eq_ok hdigits
  obtain ⟨hcursor, hnumber⟩ := act_eq_ok h
  obtain ⟨ds, w, hds, rfl, hw, hreads⟩ := Lexeme.reads_of_digits hdigits
  refine ⟨.number (String.ofList ds), ds ++ w, .number hds hw, ?_, ?_⟩
  · rw [hcursor]
    exact hreads
  · rw [hstate] at hnumber
    exact hnumber

/-- A factor: the parentheses leave a shorter text to the expression inside. -/
theorem factor_recognises {m : Semantics σ α} {n : Nat}
    (ih : ∀ k, k < n → RecognisesUpTo m k .expression) : RecognisesUpTo m n .factor := by
  intro p q v hp h
  rw [construct, factor_eq, cursor_bind_apply] at h
  split at h
  · obtain ⟨_, p₁, hopen, h⟩ := bind_eq_ok h
    obtain ⟨value, p₂, hinner, h⟩ := bind_eq_ok h
    obtain ⟨_, p₃, hclose, h⟩ := bind_eq_ok h
    cases h
    obtain ⟨hopen, hstate₁⟩ := scan_eq_ok hopen
    obtain ⟨hclose, hstate₃⟩ := scan_eq_ok hclose
    obtain ⟨u, hu, hreads₁⟩ := Lexeme.reads_of_symbol hopen
    obtain ⟨w, hw, hreads₃⟩ := Lexeme.reads_of_symbol hclose
    -- the parenthesis that was read makes the text inside shorter
    have hleft := left_of_reads hreads₁
    rw [List.length_cons] at hleft
    obtain ⟨e, s, he⟩ := ih p₁.left (by omega) (Nat.le_refl _) hinner
    refine ⟨e, '(' :: (u ++ (s ++ ')' :: w)), .parens he.spelled hu hw,
      hreads₁.trans (he.reads.trans hreads₃), ?_⟩
    have hdrive := he.drive
    rw [hstate₁] at hdrive
    rw [hstate₃]
    exact hdrive
  · split at h
    · exact reference_recognises h
    · exact number_recognises h

/-- A term is a factor that the loop goes on from. -/
theorem term_recognises {m : Semantics σ α} {n : Nat} (hx : RecognisesUpTo m n .factor) :
    RecognisesUpTo m n .term := by
  intro p q v hp h
  rw [construct, term_eq] at h
  obtain ⟨lhs, p₁, hfactor, h⟩ := bind_eq_ok h
  obtain ⟨e, s, he⟩ := hx hp hfactor
  have hleft := left_of_reads he.reads
  have hopened : Recognised m .term p p₁ lhs e s := ⟨.term he.spelled, he.reads, he.drive⟩
  exact constructAfter_recognises hx (Nat.le_refl n) (by omega) hopened h

theorem expression_recognises {m : Semantics σ α} {n : Nat} (hx : RecognisesUpTo m n .term) :
    RecognisesUpTo m n .expression := by
  intro p q v hp h
  rw [construct, expression_eq, cursor_bind_apply] at h
  split at h
  · next hsign =>
    obtain ⟨lhs, p₁, hzero, h⟩ := bind_eq_ok h
    obtain ⟨hcursor, hzero⟩ := act_eq_ok hzero
    obtain ⟨op, hop, hadditive⟩ := (Option.any_eq_true _ _).1 hsign
    have hleft : p₁.left = p.left := by rw [Progress.left, hcursor]; rfl
    have hadmits : Level.expression.admits op = true := hadditive
    have hround : p₁.cursor.operator?.filter Level.expression.admits = some op := by
      rw [hcursor, hop, Option.filter_some, if_pos hadmits]
    have h : constructAfter m.timeless .expression lhs p₁ = .ok v q := h
    rw [constructAfter_eq, cursor_bind_apply, hround] at h
    obtain ⟨r, w, t, value, p', hr, hw, hreads, hdrive, h⟩ := round_recognises hx (by omega) h
    have hleft' := left_of_reads hreads
    rw [hcursor] at hreads
    -- the first round has no tree on its left: the sign and its operand open the expression
    have hopened : Recognised m .expression p p' value (.binary op .zero r)
        (op.toChar :: (w ++ t)) := by
      refine ⟨.signed hadditive hr hw, hreads, ?_⟩
      exact (action_bind_of_ok hzero).trans hdrive
    exact constructAfter_recognises hx (Nat.le_refl n) (by omega) hopened h
  · obtain ⟨lhs, p₁, hlhs, h⟩ := bind_eq_ok h
    obtain ⟨e, s, he⟩ := hx hp hlhs
    have hleft := left_of_reads he.reads
    have hopened : Recognised m .expression p p₁ lhs e s :=
      ⟨.expression he.spelled, he.reads, he.drive⟩
    exact constructAfter_recognises hx (Nat.le_refl n) (by omega) hopened h

/-- Every production that succeeds has read a spelling of a tree and driven it. -/
theorem construct_recognises (m : Semantics σ α) (n : Nat) (level : Level) :
    RecognisesUpTo m n level := by
  induction n using Nat.strongRecOn generalizing level with
  | ind n ih =>
    -- only a factor goes back to an expression, so the two levels above it need no induction
    have hfactor : RecognisesUpTo m n .factor := factor_recognises fun k hk => ih k hk .expression
    have hterm : RecognisesUpTo m n .term := term_recognises hfactor
    cases level with
    | expression => exact expression_recognises hterm
    | term => exact hterm
    | factor => exact hfactor

/-! ## Statements -/

/-- Between the two positions the statement was read and driven. -/
structure StatementRecognised (m : Semantics σ α) (p q : Progress σ) (statement : Stmt)
    (s : List Char) : Prop where
  spelled : Stmt.Spelled m.calls statement s
  reads : p.cursor.Reads s q.cursor
  drive : statement.drive m p.state = .ok () q.state

/-- An output spells the statement that prints. -/
theorem output_recognises {m : Semantics σ α} {p q : Progress σ} {b : Unit}
    (h : output m.timeless p = .ok b q) : ∃ statement s, StatementRecognised m p q statement s := by
  obtain ⟨_, p₁, hsymbol, h⟩ := bind_eq_ok h
  obtain ⟨name, p₂, hname, h⟩ := bind_eq_ok h
  obtain ⟨hsymbol, hstate₁⟩ := scan_eq_ok hsymbol
  obtain ⟨hname, hstate₂⟩ := scan_eq_ok hname
  obtain ⟨hcursor, hprint⟩ := act_eq_ok h
  obtain ⟨u, hu, hreads₁⟩ := Lexeme.reads_of_symbol hsymbol
  obtain ⟨x, w, hx, rfl, hw, hreads₂⟩ := Lexeme.reads_of_letter hname
  refine ⟨.print (nameOf x), '!' :: (u ++ x :: w), .print hx hu hw, ?_, ?_⟩
  · rw [hcursor]
    exact hreads₁.trans hreads₂
  · rw [hstate₂, hstate₁] at hprint
    exact hprint

/-- An input spells the statement that assigns a literal. -/
theorem input_recognises {m : Semantics σ α} {p q : Progress σ} {b : Unit}
    (h : input m.timeless p = .ok b q) : ∃ statement s, StatementRecognised m p q statement s := by
  obtain ⟨_, p₁, hsymbol, h⟩ := bind_eq_ok h
  obtain ⟨name, p₂, hname, h⟩ := bind_eq_ok h
  obtain ⟨digits, p₃, hdigits, h⟩ := bind_eq_ok h
  obtain ⟨value, p₄, hnumber, h⟩ := bind_eq_ok h
  obtain ⟨hsymbol, hstate₁⟩ := scan_eq_ok hsymbol
  obtain ⟨hname, hstate₂⟩ := scan_eq_ok hname
  obtain ⟨hdigits, hstate₃⟩ := scan_eq_ok hdigits
  obtain ⟨hcursor₄, hnumber⟩ := act_eq_ok hnumber
  obtain ⟨hcursor₅, hassign⟩ := act_eq_ok h
  -- three lexemes were read, then two steps were done
  obtain ⟨u, hu, hreads₁⟩ := Lexeme.reads_of_symbol hsymbol
  obtain ⟨x, w, hx, rfl, hw, hreads₂⟩ := Lexeme.reads_of_letter hname
  obtain ⟨ds, w', hds, rfl, hw', hreads₃⟩ := Lexeme.reads_of_digits hdigits
  refine ⟨.input (nameOf x) (String.ofList ds), '?' :: (u ++ x :: (w ++ (ds ++ w'))),
    .input hx hds hu hw hw', ?_, ?_⟩
  · rw [hcursor₅, hcursor₄]
    exact hreads₁.trans (hreads₂.trans hreads₃)
  · rw [hstate₃, hstate₂, hstate₁] at hnumber
    exact (action_bind_of_ok hnumber).trans hassign

/-- An assignment spells its statement. -/
theorem assignment_recognises {m : Semantics σ α} {p q : Progress σ} {b : Unit}
    (h : assignment m.timeless p = .ok b q) :
    ∃ statement s, StatementRecognised m p q statement s := by
  rw [assignment_eq] at h
  obtain ⟨name, p₁, hname, h⟩ := bind_eq_ok h
  obtain ⟨_, p₂, hsymbol, h⟩ := bind_eq_ok h
  obtain ⟨value, p₃, hvalue, h⟩ := bind_eq_ok h
  obtain ⟨hname, hstate₁⟩ := scan_eq_ok hname
  obtain ⟨hsymbol, hstate₂⟩ := scan_eq_ok hsymbol
  obtain ⟨hcursor, hassign⟩ := act_eq_ok h
  obtain ⟨x, u, hx, rfl, hu, hreads₁⟩ := Lexeme.reads_of_letter hname
  obtain ⟨v, hv, hreads₂⟩ := Lexeme.reads_of_symbol hsymbol
  obtain ⟨e, s, he⟩ := construct_recognises m p₂.left .expression (Nat.le_refl _) hvalue
  refine ⟨.assign (nameOf x) e, x :: (u ++ '=' :: (v ++ s)), .assign hx hu hv he.spelled, ?_, ?_⟩
  · rw [hcursor]
    exact hreads₁.trans (hreads₂.trans he.reads)
  · have hdrive := he.drive
    rw [hstate₂, hstate₁] at hdrive
    rw [Stmt.drive, action_bind_of_ok hdrive]
    exact hassign

/-- Whichever statement it was, its text spells it. -/
theorem statement_recognises {m : Semantics σ α} {p q : Progress σ} {b : Unit}
    (h : statement m.timeless p = .ok b q) :
    ∃ statement' s, StatementRecognised m p q statement' s := by
  rw [statement_eq, cursor_bind_apply] at h
  split at h
  · exact output_recognises h
  · split at h
    · exact input_recognises h
    · exact assignment_recognises h

/-! ## Programs -/

theorem StatementRecognised.left_lt {m : Semantics σ α} {p q : Progress σ} {statement : Stmt}
    {s : List Char} (h : StatementRecognised m p q statement s) : q.left < p.left := by
  obtain ⟨x, t, rfl, -⟩ := h.spelled.exists_cons
  have := left_of_reads h.reads
  rw [List.length_cons] at this
  omega

/-- A program that succeeds has read a spelling of its statements, driven them one after another,
and stands at the `;` behind them. -/
theorem program_recognises (m : Semantics σ α) (n : Nat) :
    ∀ {p q : Progress σ} {b : Unit}, p.left ≤ n → program m.timeless p = .ok b q →
      ∃ statements s, Statements.Spelled m.calls statements s ∧ p.cursor.Reads s q.cursor ∧
        driveAll m statements p.state = .ok () q.state ∧ q.cursor.isAt ';' = true := by
  induction n using Nat.strongRecOn with
  | ind n ih =>
    intro p q b hp h
    rw [program_eq] at h
    obtain ⟨_, p₁, hstatement, h⟩ := bind_eq_ok h
    obtain ⟨seen, p₂, hend, h⟩ := bind_eq_ok h
    obtain ⟨statement', t, hs⟩ := statement_recognises hstatement
    obtain ⟨hend, hstate₂⟩ := scan_eq_ok hend
    obtain ⟨e, he, hreads⟩ := Lexeme.reads_of_lineEnd hend
    rw [cursor_bind_apply] at h
    split at h
    · next hat =>
      cases h
      refine ⟨[statement'], t ++ e, .last hs.spelled he, hs.reads.trans hreads, ?_, hat⟩
      rw [driveAll, action_bind_of_ok hs.drive, hstate₂]
      rfl
    · -- a statement is never empty, so the statements behind it are read from a shorter text
      have hlt := hs.left_lt
      have hle := left_of_reads hreads
      obtain ⟨statements, s, hspelled, hreads', hdrive, hat⟩ :=
        ih p₂.left (by omega) (Nat.le_refl _) h
      refine ⟨statement' :: statements, t ++ (e ++ s), .cons hs.spelled he hspelled,
        hs.reads.trans (hreads.trans hreads'), ?_, hat⟩
      rw [hstate₂] at hdrive
      rw [driveAll, action_bind_of_ok hs.drive]
      exact hdrive

end OnePass.Grammar
