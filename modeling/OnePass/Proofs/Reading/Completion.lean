import OnePass.Proofs.Reading.Locality

/-!
# What was read can be gone on from

A production reads a text of its language, or, if it fails, the beginning of one
(`begins_construct`, `begins_statement`, `begins_program`): wherever it fails, the parentheses that
are open can be closed, the operator that waits can get its operand, and the statement that was
begun can be ended. So a text is never given up behind the place where it could still have become a
program.

In a language, what may follow a text that was read is a language again (`Language.leftQuotient`).
So the goal shrinks with every step of a production (`Begins.bind`), and a loop has the same goal in
every round.
-/

namespace OnePass

/-- The texts that spell an expression of the level. -/
def Expr.texts (calls : Bool) (level : Level) : Language Char :=
  { t | ∃ e, Expr.Spelled calls level e t }

def Stmt.texts (calls : Bool) : Language Char := { t | ∃ s, Stmt.Spelled calls s t }

/-- The texts that spell statements, one after another. -/
def Statements.texts (calls : Bool) : Language Char :=
  { t | ∃ statements, Statements.Spelled calls statements t }

/-- A digit is an expression on any level, so whatever waits for one can have it. -/
theorem Expr.digit_mem_texts (calls : Bool) (level : Level) : ['0'] ∈ Expr.texts calls level := by
  have hfactor : Expr.Spelled calls .factor (.number (String.ofList ['0'])) ['0'] :=
    .number (w := []) (by decide) (by decide)
  cases level with
  | factor => exact ⟨_, hfactor⟩
  | term => exact ⟨_, .term hfactor⟩
  | expression => exact ⟨_, .expression (.term hfactor)⟩

namespace Grammar

variable {σ α β γ : Type}

/-! ## Beginnings -/

/-- A run that starts at `p` has read a text of the language, or, if it failed, the beginning of
one. -/
inductive Begins (L : Language Char) (p : Progress σ) :
    EStateM.Result Fault (Progress σ) β → Prop where
  | ok {t : List Char} {b : β} {q : Progress σ} (ht : t ∈ L) (hreads : p.cursor.Reads t q.cursor) :
      Begins L p (.ok b q)
  | error {t u : List Char} {fault : Fault} {q : Progress σ} (ht : t ++ u ∈ L)
      (hreads : p.cursor.Reads t q.cursor) : Begins L p (.error fault q)

/-- A larger language has these texts too. -/
theorem Begins.mono {L N : Language Char} {p : Progress σ}
    {r : EStateM.Result Fault (Progress σ) β} (h : Begins L p r) (hLN : ∀ t ∈ L, t ∈ N) :
    Begins N p r := by
  cases h with
  | ok ht hreads => exact .ok (hLN _ ht) hreads
  | error ht hreads => exact .error (hLN _ ht) hreads

theorem begins_pure {L : Language Char} (hL : [] ∈ L) (b : β) (p : Progress σ) :
    Begins L p ((pure b : Parser σ β) p) := .ok hL (Cursor.Reads.refl _)

/-- One step behind another. What the first has read can be completed, and the second goes on from
it. -/
theorem Begins.bind {L N : Language Char} {x : Parser σ β} {f : β → Parser σ γ} {p : Progress σ}
    (hx : Begins L p (x p)) (hL : ∀ t ∈ L, ∃ u, t ++ u ∈ N)
    (hf : ∀ t b q, t ∈ L → p.cursor.Reads t q.cursor → Begins (N.leftQuotient t) q (f b q)) :
    Begins N p ((x >>= f) p) := by
  rw [bind_apply]
  cases hresult : x p with
  | error fault q =>
    rw [hresult] at hx
    cases hx with
    | error ht hreads =>
      -- the first part has failed: it can be ended, and then the second part can
      obtain ⟨v, hv⟩ := hL _ ht
      rw [List.append_assoc] at hv
      exact .error hv hreads
  | ok b q =>
    rw [hresult] at hx
    cases hx with
    | ok ht hreads =>
      have hrest := hf _ b q ht hreads
      show Begins N p (f b q)
      cases hend : f b q with
      | ok c r =>
        rw [hend] at hrest
        cases hrest with
        | ok ht' hreads' => exact .ok ht' (hreads.trans hreads')
      | error fault r =>
        rw [hend] at hrest
        cases hrest with
        | error ht' hreads' =>
          rw [Language.mem_leftQuotient, ← List.append_assoc] at ht'
          exact .error ht' (hreads.trans hreads')

/-- A lexeme that is missing consumes nothing. -/
theorem begins_scan {L : Language Char} {lexeme : Scan β} (hdecides : ∀ c, Decides lexeme c)
    (hok : ∀ {c b c'}, lexeme c = .ok b c' → ∃ t, t ∈ L ∧ c.Reads t c') (hL : ∃ t, t ∈ L)
    (p : Progress σ) : Begins L p (scan lexeme p) := by
  unfold scan
  rcases hdecides p.cursor with ⟨b, n, -, h⟩ | ⟨what, h⟩
  · have hlexeme := h p.cursor (.refl n _)
    obtain ⟨t, ht, hreads⟩ := hok hlexeme
    simp only [hlexeme]
    exact .ok ht hreads
  · obtain ⟨t, ht⟩ := hL
    simp only [h p.cursor (.refl 0 _)]
    exact .error (t := []) ht (Cursor.Reads.refl _)

/-- An action reads nothing. -/
theorem begins_act {L : Language Char} (m : Clocked σ α) (action : Action σ β) (hL : [] ∈ L)
    (p : Progress σ) : Begins L p (act m action p) := by
  unfold act
  cases action (m.tick p.cursor p.state) with
  | ok b s => exact .ok hL (Cursor.Reads.refl _)
  | error fault s => exact .error (t := []) (u := []) hL (Cursor.Reads.refl _)

/-- A step reads nothing. If it fails, the language must have some text to go on with. -/
theorem begins_act_bind {L : Language Char} (m : Clocked σ α) (action : Action σ β)
    {f : β → Parser σ γ} {p : Progress σ} (hL : ∃ u, u ∈ L)
    (hf : ∀ b s, Begins L ⟨p.cursor, s⟩ (f b ⟨p.cursor, s⟩)) :
    Begins L p ((act m action >>= f) p) := by
  rw [bind_apply, act]
  cases action (m.tick p.cursor p.state) with
  | error fault s =>
    obtain ⟨u, hu⟩ := hL
    exact .error (t := []) hu (Cursor.Reads.refl _)
  | ok b s =>
    show Begins L p (f b ⟨p.cursor, s⟩)
    have hrest := hf b s
    cases hend : f b ⟨p.cursor, s⟩ with
    | ok c q =>
      rw [hend] at hrest
      cases hrest with
      | ok ht hreads => exact .ok ht hreads
    | error fault q =>
      rw [hend] at hrest
      cases hrest with
      | error ht hreads => exact .error ht hreads

theorem left_le_of_reads {p q : Progress σ} {t : List Char} (h : p.cursor.Reads t q.cursor) :
    q.left ≤ p.left := by
  rw [left_of_reads h]
  exact Nat.le_add_left _ _

/-- Reading a character leaves less. -/
theorem left_lt_of_reads {p q : Progress σ} {x : Char} {t : List Char}
    (h : p.cursor.Reads (x :: t) q.cursor) : q.left < p.left := by
  have hleft := left_of_reads h
  rw [List.length_cons] at hleft
  omega

/-! ## Lexemes -/

def symbolTexts (x : Char) : Language Char := { t | ∃ w, Blanks w ∧ t = x :: w }

def letterTexts : Language Char := { t | ∃ x w, x.isAlpha = true ∧ Blanks w ∧ t = x :: w }

def digitTexts : Language Char := { t | ∃ ds w, Digits ds ∧ Blanks w ∧ t = ds ++ w }

def lineEndTexts : Language Char := { t | LineEnd t }

/-- A symbol that is missing could still come. -/
theorem begins_symbol (x : Char) (p : Progress σ) :
    Begins (symbolTexts x) p (scan (Lexeme.symbol x) p) := by
  have hone : [x] ∈ symbolTexts x := ⟨[], by decide, rfl⟩
  refine begins_scan (Lexeme.decides_symbol x) (fun h => ?_) ⟨_, hone⟩ p
  obtain ⟨w, hw, hreads⟩ := Lexeme.reads_of_symbol h
  exact ⟨_, ⟨w, hw, rfl⟩, hreads⟩

theorem begins_letter (p : Progress σ) : Begins letterTexts p (scan Lexeme.letter p) := by
  have hone : ['a'] ∈ letterTexts := ⟨'a', [], rfl, by decide, rfl⟩
  refine begins_scan Lexeme.decides_letter (fun h => ?_) ⟨_, hone⟩ p
  obtain ⟨x, w, hx, -, hw, hreads⟩ := Lexeme.reads_of_letter h
  exact ⟨_, ⟨x, w, hx, hw, rfl⟩, hreads⟩

theorem begins_digits (p : Progress σ) : Begins digitTexts p (scan Lexeme.digits p) := by
  have hone : ['0'] ∈ digitTexts := ⟨['0'], [], by decide, by decide, rfl⟩
  refine begins_scan Lexeme.decides_digits (fun h => ?_) ⟨_, hone⟩ p
  obtain ⟨ds, w, hds, -, hw, hreads⟩ := Lexeme.reads_of_digits h
  exact ⟨_, ⟨ds, w, hds, hw, rfl⟩, hreads⟩

theorem begins_lineEnd (p : Progress σ) : Begins lineEndTexts p (scan Lexeme.lineEnd p) := by
  refine begins_scan Lexeme.decides_lineEnd (fun h => ?_) ⟨[], LineEnd.none⟩ p
  obtain ⟨e, he, hreads⟩ := Lexeme.reads_of_lineEnd h
  exact ⟨e, he, hreads⟩

/-! ## Expressions -/

variable {m : Clocked σ α} {level : Level}

/-- The production of the level reads a text of the level at `p`, or the beginning of one. -/
def BeginsAt (m : Clocked σ α) (level : Level) (p : Progress σ) : Prop :=
  Begins (Expr.texts m.calls level) p (construct m level p)

/-- A round of a loop, behind a text that may stand on the left of the operator. -/
theorem begins_round {op : Operator} {s : List Char} {p : Progress σ} (lhs : α)
    (hs : ∀ {w t}, Blanks w → t ∈ Expr.texts m.calls level.operand →
      s ++ op.toChar :: (w ++ t) ∈ Expr.texts m.calls level)
    (hoperand : ∀ q : Progress σ, q.left < p.left → BeginsAt m level.operand q)
    (hafter : ∀ (q : Progress σ) v {t}, q.left < p.left → t ∈ Expr.texts m.calls level →
      Begins ((Expr.texts m.calls level).leftQuotient t) q (constructAfter m level v q)) :
    Begins ((Expr.texts m.calls level).leftQuotient s) p ((do
      let held ← act m (m.hold lhs)
      scan (Lexeme.symbol op.toChar)
      let rhs ← construct m level.operand
      let value ← act m (m.combine op held rhs)
      constructAfter m level value : Parser σ α) p) := by
  have hdigit := Expr.digit_mem_texts m.calls level.operand
  have hnone : Blanks [] := by decide
  refine begins_act_bind m _ ⟨op.toChar :: ([] ++ ['0']), hs hnone hdigit⟩ fun held s₁ => ?_
  refine (begins_symbol op.toChar _).bind ?_ ?_
  · rintro _ ⟨w, hw, rfl⟩
    exact ⟨['0'], hs hw hdigit⟩
  · rintro _ _ q ⟨w, hw, rfl⟩ hreads
    have hq : q.left < p.left := left_lt_of_reads (p := ⟨p.cursor, s₁⟩) hreads
    -- the operator has been read, so fewer characters are left for the operand
    refine (hoperand q hq).bind (fun t ht => ⟨[], ?_⟩) fun t rhs q' ht hreads' => ?_
    · rw [List.append_nil]
      exact hs hw ht
    · have hround : s ++ (op.toChar :: w ++ t) ∈ Expr.texts m.calls level := hs hw ht
      rw [← Language.leftQuotient_append, ← Language.leftQuotient_append]
      refine begins_act_bind m _ ⟨[], ?_⟩ fun value s₂ => hafter _ value ?_ hround
      · rw [Language.mem_leftQuotient, List.append_nil]
        exact hround
      · exact Nat.lt_of_le_of_lt (left_le_of_reads hreads') hq

/-- A loop goes on from any text of its level. -/
theorem begins_constructAfter {p : Progress σ}
    (hoperand : ∀ q : Progress σ, q.left < p.left → BeginsAt m level.operand q) (lhs : α)
    {s : List Char} (hs : s ∈ Expr.texts m.calls level) :
    Begins ((Expr.texts m.calls level).leftQuotient s) p (constructAfter m level lhs p) := by
  induction hp : p.left using Nat.strongRecOn generalizing p lhs s with
  | ind k ih =>
    subst hp
    -- the goal is the same in every round, with what has been read moved in front of it
    rw [constructAfter_eq, cursor_bind_apply]
    cases hfilter : p.cursor.operator?.filter level.admits with
    | none => exact begins_pure (by rwa [Language.mem_leftQuotient, List.append_nil]) lhs p
    | some op =>
      obtain ⟨-, hadmits⟩ := Option.filter_eq_some_iff.1 hfilter
      refine begins_round lhs (fun {w t} hw ht => ?_) hoperand fun q v t hq ht => ?_
      · obtain ⟨l, hl⟩ := hs
        obtain ⟨r, hr⟩ := ht
        exact ⟨_, .binary hadmits hl hr hw⟩
      · exact ih q.left hq (fun q' hq' => hoperand q' (hq'.trans hq)) v ht rfl

/-- A term is a factor and the loop behind it. -/
theorem begins_term {p : Progress σ}
    (hfactor : ∀ q : Progress σ, q.left ≤ p.left → BeginsAt m .factor q) :
    BeginsAt m .term p := by
  have hsub {t : List Char} (ht : t ∈ Expr.texts m.calls .factor) :
      t ∈ Expr.texts m.calls .term := by
    obtain ⟨e, he⟩ := ht
    exact ⟨e, .term he⟩
  rw [BeginsAt, construct, term_eq]
  refine (hfactor p (Nat.le_refl _)).bind (fun t ht => ⟨[], ?_⟩) fun t lhs q ht hreads => ?_
  · rw [List.append_nil]
    exact hsub ht
  · have hq := left_le_of_reads hreads
    exact begins_constructAfter (fun q' hq' => hfactor q' (hq'.le.trans hq)) lhs (hsub ht)

/-- A leading sign makes the first round of the loop, behind nothing. -/
theorem begins_expression {p : Progress σ}
    (hterm : ∀ q : Progress σ, q.left ≤ p.left → BeginsAt m .term q) :
    BeginsAt m .expression p := by
  have hsub {t : List Char} (ht : t ∈ Expr.texts m.calls .term) :
      t ∈ Expr.texts m.calls .expression := by
    obtain ⟨e, he⟩ := ht
    exact ⟨e, .expression he⟩
  rw [BeginsAt, construct, expression_eq, cursor_bind_apply]
  cases hsign : p.cursor.isAtAdditive with
  | true =>
    obtain ⟨op, hop, hadditive⟩ := (Option.any_eq_true _ _).1 hsign
    have hfilter : p.cursor.operator?.filter Level.expression.admits = some op :=
      Option.filter_eq_some_iff.2 ⟨hop, hadditive⟩
    simp only [if_true]
    refine begins_act_bind m _ ⟨_, Expr.digit_mem_texts _ _⟩ fun v s₁ => ?_
    show Begins _ _ (constructAfter m .expression v ⟨p.cursor, s₁⟩)
    rw [constructAfter_eq, cursor_bind_apply]
    simp only [hfilter]
    -- behind a sign nothing has been read that could be a left operand
    refine begins_round (s := []) v (fun {w t} hw ht => ?_) (fun q hq => hterm q hq.le) ?_
    · obtain ⟨r, hr⟩ := ht
      exact ⟨_, .signed hadditive hr hw⟩
    · intro q v t hq ht
      exact begins_constructAfter (fun q' hq' => hterm q' (hq'.trans hq).le) v ht
  | false =>
    simp only [Bool.false_eq_true, if_false]
    refine (hterm p (Nat.le_refl _)).bind (fun t ht => ⟨[], ?_⟩) fun t lhs q ht hreads => ?_
    · rw [List.append_nil]
      exact hsub ht
    · have hq := left_le_of_reads hreads
      exact begins_constructAfter (fun q' hq' => hterm q' (hq'.le.trans hq)) lhs (hsub ht)

/-- A name that may be completed to a call where there are calls. -/
theorem begins_reference (p : Progress σ) :
    Begins (Expr.texts m.calls .factor) p (reference m p) := by
  have hvar {x : Char} {w : List Char} (hx : x.isAlpha = true) (hw : Blanks w) :
      x :: w ++ [] ∈ Expr.texts m.calls .factor := by
    rw [List.append_nil]
    exact ⟨_, .var hx hw⟩
  refine (begins_letter p).bind ?_ ?_
  · rintro _ ⟨x, w, hx, hw, rfl⟩
    exact ⟨[], hvar hx hw⟩
  · rintro _ name q ⟨x, u, hx, hu, rfl⟩ -
    rw [cursor_bind_apply]
    split
    · next hcalls =>
      -- with a `(` behind it and with calls, the name must become a call
      have hcalls : m.calls = true := (Bool.and_eq_true_iff.1 hcalls).1
      have hcall {v w : List Char} (hv : Blanks v) (hw : Blanks w) :
          x :: (u ++ '(' :: (v ++ ')' :: w)) ∈ Expr.texts m.calls .factor :=
        ⟨_, .call hcalls hx hu hv hw⟩
      refine (begins_symbol '(' q).bind ?_ ?_
      · rintro _ ⟨v, hv, rfl⟩
        exact ⟨[')'], hcall hv (by decide)⟩
      · rintro _ _ q' ⟨v, hv, rfl⟩ -
        rw [← Language.leftQuotient_append]
        refine (begins_symbol ')' q').bind ?_ ?_
        · rintro _ ⟨w, hw, rfl⟩
          refine ⟨[], ?_⟩
          rw [List.append_nil, Language.mem_leftQuotient]
          simpa using hcall hv hw
        · rintro _ _ q'' ⟨w, hw, rfl⟩ -
          refine begins_act m _ ?_ q''
          rw [← Language.leftQuotient_append, Language.mem_leftQuotient]
          simpa using hcall hv hw
    · exact begins_act m _ (hvar hx hu) q

/-- Whatever is open inside of parentheses is closed before them. -/
theorem begins_parens {p : Progress σ}
    (hexpression : ∀ q : Progress σ, q.left < p.left → BeginsAt m .expression q) :
    Begins (Expr.texts m.calls .factor) p ((do
      scan (Lexeme.symbol '(')
      let value ← construct m .expression
      scan (Lexeme.symbol ')')
      pure value : Parser σ α) p) := by
  have hparens {u t w : List Char} (hu : Blanks u) (ht : t ∈ Expr.texts m.calls .expression)
      (hw : Blanks w) : '(' :: (u ++ (t ++ ')' :: w)) ∈ Expr.texts m.calls .factor := by
    obtain ⟨e, he⟩ := ht
    exact ⟨e, .parens he hu hw⟩
  have hdigit := Expr.digit_mem_texts m.calls .expression
  have hnone : Blanks [] := by decide
  refine (begins_symbol '(' p).bind ?_ ?_
  · rintro _ ⟨u, hu, rfl⟩
    exact ⟨['0'] ++ [')'], hparens hu hdigit hnone⟩
  · rintro _ _ q ⟨u, hu, rfl⟩ hreads
    refine (hexpression q (left_lt_of_reads hreads)).bind (fun t ht => ⟨[')'], ?_⟩) ?_
    · simpa [Language.mem_leftQuotient] using hparens hu ht hnone
    · intro t value q' ht _
      rw [← Language.leftQuotient_append]
      -- the parenthesis that was opened can be closed
      refine (begins_symbol ')' q').bind ?_ ?_
      · rintro _ ⟨w, hw, rfl⟩
        refine ⟨[], ?_⟩
        rw [List.append_nil, Language.mem_leftQuotient]
        simpa using hparens hu ht hw
      · rintro _ _ q'' ⟨w, hw, rfl⟩ -
        refine begins_pure ?_ value q''
        rw [← Language.leftQuotient_append, Language.mem_leftQuotient]
        simpa using hparens hu ht hw

/-- A factor is in parentheses, or a name, or a number. -/
theorem begins_factor {p : Progress σ}
    (hexpression : ∀ q : Progress σ, q.left < p.left → BeginsAt m .expression q) :
    BeginsAt m .factor p := by
  rw [BeginsAt, construct, factor_eq, cursor_bind_apply]
  split
  · exact begins_parens hexpression
  · split
    · exact begins_reference p
    · refine (begins_digits p).bind ?_ ?_
      · rintro _ ⟨ds, w, hds, hw, rfl⟩
        exact ⟨[], by rw [List.append_nil]; exact ⟨_, .number hds hw⟩⟩
      · rintro _ digits q ⟨ds, w, hds, hw, rfl⟩ -
        refine begins_act m _ ?_ q
        rw [Language.mem_leftQuotient, List.append_nil]
        exact ⟨_, .number hds hw⟩

/-- Each level of an expression begins a text of its language. Induction on the characters left,
since parentheses lead back to the highest level. -/
theorem begins_construct (m : Clocked σ α) (level : Level) (p : Progress σ) :
    BeginsAt m level p := by
  induction hp : p.left using Nat.strongRecOn generalizing level p with
  | ind k ih =>
    -- only a factor goes back to an expression, of fewer characters
    have hfactor (q : Progress σ) (hq : q.left ≤ k) : BeginsAt m .factor q :=
      begins_factor fun q' hq' => ih q'.left (Nat.lt_of_lt_of_le hq' hq) .expression q' rfl
    have hterm (q : Progress σ) (hq : q.left ≤ k) : BeginsAt m .term q :=
      begins_term fun q' hq' => hfactor q' (hq'.trans hq)
    cases level with
    | factor => exact hfactor p hp.le
    | term => exact hterm p hp.le
    | expression => exact begins_expression fun q hq => hterm q (hq.trans hp.le)

/-! ## Statements -/

/-- An output can have its name. -/
theorem begins_output (p : Progress σ) : Begins (Stmt.texts m.calls) p (output m p) := by
  have hprint {x : Char} {u w : List Char} (hx : x.isAlpha = true) (hu : Blanks u)
      (hw : Blanks w) : '!' :: (u ++ x :: w) ∈ Stmt.texts m.calls := ⟨_, .print hx hu hw⟩
  refine (begins_symbol '!' p).bind ?_ ?_
  · rintro _ ⟨u, hu, rfl⟩
    exact ⟨['a'], hprint rfl hu (by decide)⟩
  · rintro _ _ q ⟨u, hu, rfl⟩ -
    refine (begins_letter q).bind ?_ ?_
    · rintro _ ⟨x, w, hx, hw, rfl⟩
      exact ⟨[], by simpa [Language.mem_leftQuotient] using hprint hx hu hw⟩
    · rintro _ name q' ⟨x, w, hx, hw, rfl⟩ -
      refine begins_act m _ ?_ q'
      rw [← Language.leftQuotient_append, Language.mem_leftQuotient, List.append_nil]
      exact hprint hx hu hw

/-- An input can have its name and its digits. -/
theorem begins_input (p : Progress σ) : Begins (Stmt.texts m.calls) p (input m p) := by
  have hinput {x : Char} {ds u v w : List Char} (hx : x.isAlpha = true) (hds : Digits ds)
      (hu : Blanks u) (hv : Blanks v) (hw : Blanks w) :
      '?' :: (u ++ x :: (v ++ (ds ++ w))) ∈ Stmt.texts m.calls := ⟨_, .input hx hds hu hv hw⟩
  have hone : Digits ['0'] := by decide
  have hnone : Blanks [] := by decide
  refine (begins_symbol '?' p).bind ?_ ?_
  · rintro _ ⟨u, hu, rfl⟩
    exact ⟨['a', '0'], hinput (x := 'a') rfl hone hu hnone hnone⟩
  · rintro _ _ q ⟨u, hu, rfl⟩ -
    refine (begins_letter q).bind ?_ ?_
    · rintro _ ⟨x, v, hx, hv, rfl⟩
      exact ⟨['0'], by simpa [Language.mem_leftQuotient] using hinput hx hone hu hv hnone⟩
    · rintro _ name q' ⟨x, v, hx, hv, rfl⟩ -
      refine (begins_digits q').bind ?_ ?_
      · rintro _ ⟨ds, w, hds, hw, rfl⟩
        exact ⟨[], by simpa [Language.mem_leftQuotient] using hinput hx hds hu hv hw⟩
      · rintro _ digits q'' ⟨ds, w, hds, hw, rfl⟩ -
        have hdone : [] ∈ (((Stmt.texts m.calls).leftQuotient ('?' :: u)).leftQuotient
            (x :: v)).leftQuotient (ds ++ w) := by
          simpa [Language.mem_leftQuotient] using hinput hx hds hu hv hw
        exact begins_act_bind m _ ⟨[], hdone⟩ fun value s => begins_act m _ hdone _

/-- An assignment can have its `=` and a digit behind it. -/
theorem begins_assignment (p : Progress σ) : Begins (Stmt.texts m.calls) p (assignment m p) := by
  have hassign {x : Char} {u v t : List Char} (hx : x.isAlpha = true) (hu : Blanks u)
      (hv : Blanks v) (ht : t ∈ Expr.texts m.calls .expression) :
      x :: (u ++ '=' :: (v ++ t)) ∈ Stmt.texts m.calls := by
    obtain ⟨e, he⟩ := ht
    exact ⟨_, .assign hx hu hv he⟩
  have hdigit := Expr.digit_mem_texts m.calls .expression
  rw [assignment_eq]
  refine (begins_letter p).bind ?_ ?_
  · rintro _ ⟨x, u, hx, hu, rfl⟩
    exact ⟨['=', '0'], hassign (v := []) hx hu (by decide) hdigit⟩
  · rintro _ name q ⟨x, u, hx, hu, rfl⟩ -
    refine (begins_symbol '=' q).bind ?_ ?_
    · rintro _ ⟨v, hv, rfl⟩
      exact ⟨['0'], hassign hx hu hv hdigit⟩
    · rintro _ _ q' ⟨v, hv, rfl⟩ -
      refine (begins_construct m .expression q').bind ?_ ?_
      · intro t ht
        exact ⟨[], by simpa [Language.mem_leftQuotient] using hassign hx hu hv ht⟩
      · intro t value q'' ht _
        refine begins_act m _ ?_ q''
        simpa [Language.mem_leftQuotient] using hassign hx hu hv ht

/-- A statement that has not begun can become an output. -/
theorem begins_statement (p : Progress σ) : Begins (Stmt.texts m.calls) p (statement m p) := by
  rw [statement_eq, cursor_bind_apply]
  split
  · exact begins_output p
  · split
    · exact begins_input p
    · exact begins_assignment p

/-! ## Programs -/

/-- Wherever a program fails, what it has read of its statements can be completed. -/
theorem begins_program (m : Clocked σ α) (p : Progress σ) :
    Begins (Statements.texts m.calls) p (program m p) := by
  have hone {t e : List Char} (ht : t ∈ Stmt.texts m.calls) (he : LineEnd e) :
      t ++ e ∈ Statements.texts m.calls := by
    obtain ⟨s, hs⟩ := ht
    exact ⟨_, .last hs he⟩
  induction hp : p.left using Nat.strongRecOn generalizing p with
  | ind k ih =>
    rw [program_eq]
    refine (begins_statement p).bind (fun t ht => ⟨[], hone ht .none⟩) fun t _ q ht hreads => ?_
    refine (begins_lineEnd q).bind (fun e he => ⟨[], ?_⟩) fun e seen q' he hreads' => ?_
    · rw [List.append_nil]
      exact hone ht he
    · rw [cursor_bind_apply]
      split
      · refine begins_pure ?_ () q'
        rw [Language.mem_leftQuotient, List.append_nil]
        exact hone ht he
      · obtain ⟨s, hs⟩ := ht
        -- a statement is at least one character, so fewer are left for those behind it
        have hq : q'.left < k := by
          obtain ⟨x, t', rfl, -⟩ := hs.exists_cons
          rw [← hp]
          exact Nat.lt_of_le_of_lt (left_le_of_reads hreads') (left_lt_of_reads hreads)
        rw [← Language.leftQuotient_append]
        refine (ih q'.left hq q' rfl).mono fun u hu => ?_
        obtain ⟨ss, hss⟩ := hu
        rw [Language.mem_leftQuotient, List.append_assoc]
        exact ⟨s :: ss, .cons hs he hss⟩

end Grammar

end OnePass
