import OnePass.Proofs.Reading.Completion

/-!
# Where calls make a difference

With calls and without, the grammar differs at one place only: behind a name that is an operand. So
two runs on one text, one with calls and one without, are the same up to the first `(` behind such a
name (`parallel_program`). There they part: the one with calls reads the `(` and goes on; to the
other the name was a variable, and whatever it still does, it never moves from the `(`
(`Stays`).
-/

namespace OnePass

variable {σ α : Type}

/-- The semantics for which `name()` is no construct. -/
def Semantics.withoutCalls (m : Semantics σ α) : Semantics σ α :=
  { m with
    calls := false
    call := fun _ => .callsNotSupported }

/-- The characters that an operand may stand behind, but for the blanks in between. -/
def opensOperand (c : Char) : Bool := c = '=' || c = '(' || (Operator.ofChar? c).isSome

theorem opensOperand_toChar (op : Operator) : opensOperand op.toChar = true := by
  cases op <;> rfl

namespace Grammar

variable {β γ : Type}

/-- The texts that end in a name which is an operand, and blanks. -/
def operandNames : Language Char :=
  { t | ∃ s c v n, opensOperand c = true ∧ Blanks v ∧ n ∈ letterTexts ∧ t = s ++ c :: (v ++ n) }

/-- Anything may stand in front of the character before the name. -/
theorem append_mem_operandNames {t : List Char} (h : t ∈ operandNames) (s : List Char) :
    s ++ t ∈ operandNames := by
  obtain ⟨s', c, v, n, hc, hv, hn, rfl⟩ := h
  exact ⟨s ++ s', c, v, n, hc, hv, hn, (List.append_assoc _ _ _).symm⟩

/-- A name behind such a character, with blanks in between. -/
theorem mem_operandNames_of_letter {c : Char} {v t : List Char} (hc : opensOperand c = true)
    (hv : Blanks v) (ht : t ∈ letterTexts) : c :: v ++ t ∈ operandNames :=
  ⟨[], c, v, t, hc, hv, ht, rfl⟩

/-! ## Standing still -/

/-- A parser that does not move from a `(`. -/
def Stays (x : Parser σ β) : Prop :=
  ∀ p, p.cursor.look = some '(' → (Action.ended (x p)).cursor = p.cursor

/-- A parser that fails at a `(`. -/
def Refuses (x : Parser σ β) : Prop :=
  ∀ p, p.cursor.look = some '(' → ∃ fault, x p = .error fault p

/-- A parser that refuses to read stays where it is. -/
theorem Refuses.stays {x : Parser σ β} (h : Refuses x) : Stays x := by
  intro p hp
  obtain ⟨fault, hx⟩ := h p hp
  rw [hx]
  rfl

theorem Refuses.bind {x : Parser σ β} (h : Refuses x) (f : β → Parser σ γ) :
    Refuses (x >>= f) := by
  intro p hp
  obtain ⟨fault, hx⟩ := h p hp
  refine ⟨fault, ?_⟩
  rw [bind_apply, hx]

/-- The cursor that is looked at is the one at the parenthesis. -/
theorem Refuses.cursor_bind {f : Cursor → Parser σ β}
    (h : ∀ c : Cursor, c.look = some '(' → Refuses (f c)) : Refuses (cursor >>= f) :=
  fun p hp => h p.cursor hp p hp

/-- A cursor at `(` is at no other character. -/
theorem isAt_eq_false {c : Cursor} (h : c.look = some '(') {x : Char} (hx : x ≠ '(') :
    c.isAt x = false := by
  rw [Cursor.isAt, h, decide_eq_false_iff_not]
  rintro ⟨⟩
  exact hx rfl

/-- Every other symbol is refused there. -/
theorem refuses_symbol {x : Char} (hx : x ≠ '(') :
    Refuses (scan (Lexeme.symbol x) : Parser σ Unit) := by
  intro p hp
  refine ⟨p.cursor.missing ("\"" ++ x.toString ++ "\""), ?_⟩
  unfold scan Lexeme.symbol
  simp only [isAt_eq_false hp hx, Bool.false_eq_true, if_false]

theorem refuses_letter : Refuses (scan Lexeme.letter : Parser σ String) := by
  intro p hp
  have hfilter : p.cursor.look.filter Char.isAlpha = none := by
    rw [hp]
    rfl
  refine ⟨p.cursor.missing "Name", ?_⟩
  unfold scan Lexeme.letter
  simp only [hfilter]

theorem stays_pure (b : β) : Stays (pure b : Parser σ β) := fun _ _ => rfl

/-- A step of a semantics does not move the cursor. -/
theorem stays_act (m : Clocked σ α) (action : Action σ β) : Stays (act m action) := by
  intro p _
  unfold act
  cases action (m.tick p.cursor p.state) <;> rfl

/-- A `(` is no line end, so nothing is read for one. -/
theorem stays_lineEnd : Stays (scan Lexeme.lineEnd : Parser σ Bool) := by
  intro p hp
  have hnone : Lexeme.lineEnd p.cursor = .ok false p.cursor :=
    Lexeme.lineEnd_of_look (by rw [hp]; decide) (by rw [hp]; decide)
  unfold scan
  rw [hnone]
  rfl

/-- Of two parsers the second starts at the same `(`. -/
theorem Stays.bind {x : Parser σ β} {f : β → Parser σ γ} (hx : Stays x)
    (hf : ∀ b, Stays (f b)) : Stays (x >>= f) := by
  intro p hp
  have hcursor := hx p hp
  rw [bind_apply]
  cases hxp : x p with
  | error fault q =>
    rw [hxp] at hcursor
    exact hcursor
  | ok b q =>
    rw [hxp] at hcursor
    have hcursor : q.cursor = p.cursor := hcursor
    rw [← hcursor] at hp ⊢
    exact hf b q hp

/-- The cursor that is looked at is the one at the parenthesis. -/
theorem Stays.cursor_bind {f : Cursor → Parser σ β}
    (h : ∀ c : Cursor, c.look = some '(' → Stays (f c)) : Stays (cursor >>= f) :=
  fun p hp => h p.cursor hp p hp

section

variable {m : Clocked σ α}

/-- A `(` is no operator. -/
theorem operator?_parenthesis {c : Cursor} (h : c.look = some '(') : c.operator? = none := by
  rw [Cursor.operator?, h]
  rfl

theorem stays_chainWithin (level : Operator → Bool) (operand : Parser σ α) (n : Nat) (lhs : α) :
    Stays (chainWithin m level operand n lhs) := by
  cases n with
  | zero => exact stays_pure lhs
  | succ n =>
    refine Stays.cursor_bind fun c hc => ?_
    rw [operator?_parenthesis hc]
    exact stays_pure lhs

theorem refuses_statementWithin (n : Nat) : Refuses (statementWithin m n) := by
  refine Refuses.cursor_bind fun c hc => ?_
  rw [isAt_eq_false hc (by decide), isAt_eq_false hc (by decide)]
  exact refuses_letter.bind _

/-- A program does not get past it. -/
theorem stays_programWithin (n : Nat) : Stays (programWithin m n) := by
  cases n with
  | zero => exact fun _ _ => rfl
  | succ n => exact ((refuses_statementWithin _).bind _).stays

end

/-! ## Parting -/

/-- Two runs from one place have parted behind a text of the language: the one has read the `(`
there, and the other one has not. -/
def Parts (L : Language Char) (p : Progress σ) (r r' : EStateM.Result Fault (Progress σ) β) :
    Prop :=
  ∃ t u, t ∈ L ∧ p.cursor.Reads (t ++ '(' :: u) (Action.ended r).cursor ∧
    p.cursor.Reads t (Action.ended r').cursor

/-- Two parsers that do the same, or part behind a text of the language. -/
def Parallel (L : Language Char) (x y : Parser σ β) : Prop :=
  ∀ p, x p = y p ∨ Parts L p (x p) (y p)

theorem Parallel.refl (L : Language Char) (x : Parser σ β) : Parallel L x x := fun _ => .inl rfl

/-- Runs may part at more places. -/
theorem Parallel.mono {L N : Language Char} {x y : Parser σ β} (h : Parallel L x y)
    (hLN : ∀ t ∈ L, t ∈ N) : Parallel N x y := by
  intro p
  refine (h p).imp_right ?_
  rintro ⟨t, u, ht, hreads⟩
  exact ⟨t, u, hLN t ht, hreads⟩

/-- Both look at the same cursor. -/
theorem Parallel.cursor_bind {L : Language Char} {f g : Cursor → Parser σ β}
    (h : ∀ c, Parallel L (f c) (g c)) : Parallel L (cursor >>= f) (cursor >>= g) :=
  fun p => h p.cursor p

section

variable {m : Semantics σ α}

/-- What both runs have read in the same way comes before the place where they part. -/
theorem Parallel.same_bind {x : Parser σ β} {f g : β → Parser σ γ} (hx : Formed m.timeless x)
    (hfg : ∀ b, Parallel operandNames (f b) (g b)) :
    Parallel operandNames (x >>= f) (x >>= g) := by
  intro p
  rw [bind_apply, bind_apply]
  obtain ⟨s, hs⟩ := hx.reads p
  cases hxp : x p with
  | error fault q => exact .inl rfl
  | ok b q =>
    rw [hxp] at hs
    refine (hfg b q).imp_right ?_
    rintro ⟨t, u, ht, hreads, hreads'⟩
    refine ⟨s ++ t, u, append_mem_operandNames ht s, ?_, hs.trans hreads'⟩
    rw [List.append_assoc]
    exact hs.trans hreads

/-- One step behind another. Where the two runs have parted in the first, the one goes on reading,
and the other one stays. -/
theorem Parallel.bind {L : Language Char} {x y : Parser σ β} {f g : β → Parser σ γ}
    (hxy : Parallel L x y) (hx : Formed m.timeless x) (hf : ∀ b, Formed m.timeless (f b))
    (hg : ∀ b, Stays (g b)) (hfg : ∀ b, Parallel operandNames (f b) (g b))
    (hL : ∀ t ∈ operandNames, t ∈ L) : Parallel L (x >>= f) (y >>= g) := by
  intro p
  rcases hxy p with hsame | ⟨t, u, ht, hreads, hreads'⟩
  · have hbind : (y >>= g) p = (x >>= g) p := by rw [bind_apply, bind_apply, hsame]
    rw [hbind]
    exact ((Parallel.same_bind hx hfg).mono hL) p
  · refine .inr ?_
    -- the run with calls goes on from behind the `(`
    have hgoes : ∃ v, p.cursor.Reads (t ++ '(' :: v) (Action.ended ((x >>= f) p)).cursor := by
      rw [bind_apply]
      cases hxp : x p with
      | error fault q =>
        rw [hxp] at hreads
        exact ⟨u, hreads⟩
      | ok b q =>
        rw [hxp] at hreads
        obtain ⟨v, hv⟩ := (hf b).reads q
        refine ⟨u ++ v, ?_⟩
        rw [← List.cons_append, ← List.append_assoc]
        exact hreads.trans hv
    -- and the other one stands there still
    have hstays : (Action.ended ((y >>= g) p)).cursor = (Action.ended (y p)).cursor := by
      rw [bind_apply]
      cases hyp : y p with
      | error fault q => rfl
      | ok b q =>
        rw [hyp] at hreads'
        have hreads' : p.cursor.Reads t q.cursor := hreads'
        have hunread := hreads.unread
        rw [hreads'.unread, List.append_assoc, List.cons_append] at hunread
        exact hg b q (Cursor.look_of_unread (List.append_cancel_left hunread))
    obtain ⟨v, hv⟩ := hgoes
    refine ⟨t, v, ht, hv, ?_⟩
    rw [hstays]
    exact hreads'

/-- Behind a character that opens an operand, a name is one. -/
theorem Parallel.symbol_bind {x : Char} (hx : opensOperand x = true) {f g : Unit → Parser σ β}
    (h : Parallel (letterTexts + operandNames) (f ()) (g ())) :
    Parallel operandNames (scan (Lexeme.symbol x) >>= f) (scan (Lexeme.symbol x) >>= g) := by
  intro p
  rw [bind_apply, bind_apply]
  cases hscan : (scan (Lexeme.symbol x) : Parser σ Unit) p with
  | error fault q => exact .inl rfl
  | ok b q =>
    obtain ⟨w, hw, hs⟩ := Lexeme.reads_of_symbol (scan_eq_ok hscan).1
    refine (h _).imp_right ?_
    rintro ⟨t, u, ht, hreads, hreads'⟩
    refine ⟨x :: w ++ t, u, ?_, ?_, hs.trans hreads'⟩
    · -- either the symbol itself stands before the name, or the name comes later
      rcases ht with ht | ht
      · exact mem_operandNames_of_letter hx hw ht
      · exact append_mem_operandNames ht _
    · rw [List.append_assoc]
      exact hs.trans hreads

end

/-! ## Productions -/

variable {m : Semantics σ α}

/-- A parser of operands: where it parts, it is behind its own first name or a later one. -/
def ParallelOperand (x y : Parser σ α) : Prop := Parallel (letterTexts + operandNames) x y

/-- Chains of parallel operands are parallel, with the operator as what stands before the name.
Induction on the bound. -/
theorem parallel_chainWithin (level : Operator → Bool) {x y : Parser σ α}
    (hxy : ParallelOperand x y) (hx : Formed m.timeless x) (n : Nat) (lhs : α) :
    Parallel operandNames (chainWithin m.timeless level x n lhs)
      (chainWithin m.withoutCalls.timeless level y n lhs) := by
  induction n generalizing lhs with
  | zero => exact .refl _ _
  | succ n ih =>
    refine Parallel.cursor_bind fun c => ?_
    cases c.operator?.filter level with
    | none => exact .refl _ _
    | some op =>
      have hchain := formed_chainWithin level hx n
      refine Parallel.same_bind (m := m) (formed_act (.hold lhs) rfl) fun held => ?_
      -- the operand behind the operator is where the runs may part
      refine Parallel.symbol_bind (opensOperand_toChar op) ?_
      refine hxy.bind hx (fun rhs => ?_) (fun rhs => ?_) (fun rhs => ?_) fun t => Or.inr
      · exact (formed_act (.combine op held rhs) rfl).bind hchain
      · exact (stays_act _ _).bind fun value => stays_chainWithin _ _ _ _
      · exact Parallel.same_bind (m := m) (formed_act (.combine op held rhs) rfl) ih

/-- Terms of parallel factors are parallel. -/
theorem parallel_termWithin {x y : Parser σ α} (hxy : ParallelOperand x y)
    (hx : Formed m.timeless x) (n : Nat) :
    ParallelOperand (termWithin m.timeless x n) (termWithin m.withoutCalls.timeless y n) :=
  hxy.bind hx (formed_chainWithin _ hx n) (fun lhs => stays_chainWithin _ _ n lhs)
    (parallel_chainWithin _ hxy hx n) fun _ => Or.inr

/-- Expressions of parallel factors are parallel, with a sign in front or without. -/
theorem parallel_expressionWithin {x y : Parser σ α} (hxy : ParallelOperand x y)
    (hx : Formed m.timeless x) (n : Nat) :
    ParallelOperand (expressionWithin m.timeless x n)
      (expressionWithin m.withoutCalls.timeless y n) := by
  have hterm := parallel_termWithin hxy hx n
  have hformed := formed_termWithin hx n
  have hchain (lhs : α) := parallel_chainWithin Operator.isAdditive hterm hformed n lhs
  refine Parallel.cursor_bind fun c => ?_
  cases c.isAtAdditive with
  | true =>
    exact (Parallel.same_bind (m := m) (formed_act .zero rfl) hchain).mono fun _ => Or.inr
  | false =>
    exact hterm.bind hformed (formed_chainWithin _ hformed n)
      (fun lhs => stays_chainWithin _ _ n lhs) hchain fun _ => Or.inr

/-- A symbol that is at hand is read, and then something more. -/
theorem reads_symbol_bind {x : Char} {f : Unit → Parser σ β} (hf : Formed m.timeless (f ()))
    {p : Progress σ} (hat : p.cursor.isAt x = true) :
    ∃ u, p.cursor.Reads (x :: u) (Action.ended ((scan (Lexeme.symbol x) >>= f) p)).cursor := by
  have hscan : (scan (Lexeme.symbol x) : Parser σ Unit) p =
      .ok () ⟨p.cursor.advance.skipBlanks, p.state⟩ := by
    unfold scan Lexeme.symbol
    simp only [hat, if_true]
  obtain ⟨w, -, hs⟩ := Lexeme.reads_of_symbol (scan_eq_ok hscan).1
  obtain ⟨v, hv⟩ := hf.reads ⟨p.cursor.advance.skipBlanks, p.state⟩
  refine ⟨w ++ v, ?_⟩
  rw [bind_apply, hscan]
  exact hs.trans hv

/-- Behind a name the run with calls takes a `(` for the start of a call. -/
theorem parallel_reference (hcalls : m.calls = true) :
    Parallel letterTexts (reference m.timeless) (reference m.withoutCalls.timeless) := by
  intro p
  unfold reference
  rw [bind_apply, bind_apply]
  cases hscan : (scan Lexeme.letter : Parser σ String) p with
  | error fault q => exact .inl rfl
  | ok name q =>
    obtain ⟨x, w, hx, -, hw, hs⟩ := Lexeme.reads_of_letter (scan_eq_ok hscan).1
    have hwith : m.timeless.calls = true := hcalls
    have hwithout : m.withoutCalls.timeless.calls = false := rfl
    simp only [cursor_bind_apply, hwith, hwithout, Bool.true_and, Bool.false_and,
      Bool.false_eq_true, if_false]
    -- without a `(` behind the name both load a variable
    cases hat : q.cursor.isAt '(' with
    | false =>
      simp only [Bool.false_eq_true, if_false]
      exact .inl rfl
    | true =>
      simp only [if_true]
      have hcall : Formed m.timeless (do
          scan (Lexeme.symbol ')')
          act m.timeless (m.call name)) :=
        (Formed.symbol _).bind fun _ => .act (.call name) (fun _ => hcalls)
          (Option.some_injective _) rfl
      obtain ⟨u, hu⟩ := reads_symbol_bind (f := fun _ => _) hcall hat
      refine .inr ⟨x :: w, u, ⟨x, w, hx, hw, rfl⟩, hs.trans hu, ?_⟩
      -- to load a variable moves nothing
      have hlook : q.cursor.look = some '(' := by simpa [Cursor.isAt] using hat
      rw [stays_act _ _ q hlook]
      exact hs

/-- Factors run parallel up to a call. In parentheses it is the `(` that stands before the name. -/
theorem parallel_factorWithin (hcalls : m.calls = true) (n : Nat) :
    ParallelOperand (factorWithin m.timeless n) (factorWithin m.withoutCalls.timeless n) := by
  induction n with
  | zero => exact .refl _ _
  | succ n ih =>
    have hfactor := formed_factorWithin (m := m.timeless) n
    refine Parallel.cursor_bind fun c => ?_
    cases c.isAt '(' with
    | true =>
      simp only [if_true]
      -- where the runs part in the parentheses, the other one refuses to close them
      refine Parallel.mono (Parallel.symbol_bind (x := '(') rfl ?_) fun _ => Or.inr
      refine (parallel_expressionWithin ih hfactor n).bind
        (formed_expressionWithin hfactor n) (fun value => ?_) (fun value => ?_) (fun value => ?_)
        fun _ => Or.inr
      · exact (Formed.symbol _).bind fun _ => .pure value
      · exact ((refuses_symbol (x := ')') (by decide)).bind _).stays
      · exact .refl _ _
    | false =>
      cases c.isAtLetter with
      | true =>
        simp only [Bool.false_eq_true, if_false, if_true]
        exact (parallel_reference hcalls).mono fun _ => Or.inl
      | false =>
        simp only [Bool.false_eq_true, if_false]
        exact .refl _ _

/-- Assignments run parallel behind their `=`. -/
theorem parallel_assignmentWithin (hcalls : m.calls = true) (n : Nat) :
    Parallel operandNames (assignmentWithin m.timeless n)
      (assignmentWithin m.withoutCalls.timeless n) := by
  have hfactor := formed_factorWithin (m := m.timeless) n
  refine Parallel.same_bind (m := m) .letter fun name => Parallel.symbol_bind rfl ?_
  refine (parallel_expressionWithin (parallel_factorWithin hcalls n) hfactor n).bind
    (formed_expressionWithin hfactor n) (fun value => ?_) (fun value => ?_) (fun value => ?_)
    fun _ => Or.inr
  · exact formed_act (.assign name value) rfl
  · exact stays_act _ _
  · exact .refl _ _

/-- Outputs and inputs have no operands, so they are the same with calls and without. -/
theorem parallel_statementWithin (hcalls : m.calls = true) (n : Nat) :
    Parallel operandNames (statementWithin m.timeless n)
      (statementWithin m.withoutCalls.timeless n) := by
  refine Parallel.cursor_bind fun c => ?_
  cases c.isAt '!' with
  | true =>
    simp only [if_true]
    exact .refl _ _
  | false =>
    cases c.isAt '?' with
    | true =>
      simp only [Bool.false_eq_true, if_false, if_true]
      exact .refl _ _
    | false =>
      simp only [Bool.false_eq_true, if_false]
      exact parallel_assignmentWithin hcalls n

/-- Statement by statement, up to the first call. -/
theorem parallel_programWithin (hcalls : m.calls = true) (n : Nat) :
    Parallel operandNames (programWithin m.timeless n)
      (programWithin m.withoutCalls.timeless n) := by
  induction n with
  | zero => exact .refl _ _
  | succ n ih =>
    refine (parallel_statementWithin hcalls _).bind (formed_statementWithin _) (fun _ => ?_)
      (fun _ => ?_) (fun _ => ?_) fun _ => id
    · -- behind a statement with a call the run with calls only reads on
      refine Formed.lineEnd.bind fun _ => .cursor (fun c => ?_) fun c c' hlook => by
        simp only [Cursor.isAt_congr hlook ';']
      split
      · exact .pure ()
      · exact formed_programWithin n
    · -- and the one without stays at the `(`
      refine stays_lineEnd.bind fun _ => Stays.cursor_bind fun c hc => ?_
      rw [isAt_eq_false hc (by decide)]
      exact stays_programWithin n
    · refine Parallel.same_bind (m := m) .lineEnd fun _ => Parallel.cursor_bind fun c => ?_
      cases c.isAt ';' with
      | true => exact .refl _ (pure ())
      | false => exact ih

/-- A run with calls and one without do the same, or part at a `(` behind a name that is an
operand. -/
theorem parallel_program (hcalls : m.calls = true) :
    Parallel operandNames (program m.timeless) (program m.withoutCalls.timeless) :=
  fun p => parallel_programWithin hcalls p.left p

end Grammar

end OnePass
