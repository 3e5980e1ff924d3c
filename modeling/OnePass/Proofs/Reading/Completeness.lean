import OnePass.Grammar.Equations
import OnePass.Proofs.Reading.Lexemes

/-!
# A spelled text is read as its tree

Where the text at hand spells a tree, the production for it reads exactly that text and does to the
semantics what the tree does (`expression_does`, `statement_does`, `program_does`). `Does` is the
shape of every statement on the way: at a cursor, a parser reads so many characters and has the
effect of an action, for whatever state and values the semantics has.

The productions loop where the spellings are left recursive, so the induction is over the spelling
and carries *what goes on behind it*: the parser of a level first drives the tree and then continues
as the loop of that level does behind the tree (`construct_does`).
-/

namespace OnePass.Grammar

variable {σ α β γ : Type}

/-! ## Reading and acting -/

/-- At the cursor, the parser reads `n` characters and does what the action does. Where the action
fails, the parser fails in the same way, wherever its cursor stands then. -/
def Does (x : Parser σ β) (c : Cursor) (n : Nat) (y : Action σ β) : Prop :=
  ∀ s : σ, match y s with
    | .ok b s' => x ⟨c, s⟩ = .ok b ⟨c.skip n, s'⟩
    | .error fault s' => ∃ c', x ⟨c, s⟩ = .error fault ⟨c', s'⟩

/-- Where the action succeeds, the parser has read what it should. -/
theorem Does.eq_ok {x : Parser σ β} {c : Cursor} {n : Nat} {y : Action σ β} {s s' : σ} {b : β}
    (h : Does x c n y) (hy : y s = .ok b s') : x ⟨c, s⟩ = .ok b ⟨c.skip n, s'⟩ := by
  have := h s
  rw [hy] at this
  exact this

/-- Where the action fails, the parser fails with the same fault, wherever it stands then. -/
theorem Does.eq_error {x : Parser σ β} {c : Cursor} {n : Nat} {y : Action σ β} {s s' : σ}
    {fault : Fault} (h : Does x c n y) (hy : y s = .error fault s') :
    ∃ c', x ⟨c, s⟩ = .error fault ⟨c', s'⟩ := by
  have := h s
  rw [hy] at this
  exact this

theorem does_pure (b : β) (c : Cursor) : Does (pure b : Parser σ β) c 0 (pure b) := fun _ => rfl

theorem act_timeless_apply (m : Semantics σ α) (action : Action σ β) (c : Cursor) (s : σ) :
    act m.timeless action ⟨c, s⟩ =
      match action s with
      | .ok b s' => .ok b ⟨c, s'⟩
      | .error fault s' => .error fault ⟨c, s'⟩ := rfl

/-- A step reads nothing. -/
theorem does_act (m : Semantics σ α) (action : Action σ β) (c : Cursor) :
    Does (act m.timeless action) c 0 action := by
  intro s
  rw [act_timeless_apply]
  cases action s with
  | ok b s' => rfl
  | error fault s' => exact ⟨c, rfl⟩

/-- A lexeme is read, and the semantics has no part in it. -/
theorem does_scan {lexeme : Scan β} {b : β} {c : Cursor} {n : Nat}
    (h : lexeme c = .ok b (c.skip n)) : Does (scan lexeme : Parser σ β) c n (pure b) := by
  intro s
  show scan lexeme ⟨c, s⟩ = _
  simp only [scan, h]

/-- The characters that two steps read add up. -/
theorem Does.bind {x : Parser σ β} {f : β → Parser σ γ} {c : Cursor} {n k : Nat} {y : Action σ β}
    {g : β → Action σ γ} (hx : Does x c n y) (hf : ∀ b, Does (f b) (c.skip n) k (g b)) :
    Does (x >>= f) c (n + k) (y >>= g) := by
  intro s
  have hx := hx s
  rw [bind_apply]
  simp only [Bind.bind, EStateM.bind]
  cases hy : y s with
  | error fault s' =>
    rw [hy] at hx
    obtain ⟨c', hc'⟩ := hx
    rw [hc']
    exact ⟨c', rfl⟩
  | ok b s' =>
    rw [hy] at hx
    simp only at hx
    have hf := hf b s'
    -- the second reads on from where the first has stopped
    rw [hx, Cursor.skip_add]
    exact hf

/-- What has no effect may come first. -/
theorem Does.bind_of_pure {x : Parser σ β} {f : β → Parser σ γ} {c : Cursor} {n k : Nat} {b : β}
    {g : Action σ γ} (hx : Does x c n (pure b)) (hf : Does (f b) (c.skip n) k g) :
    Does (x >>= f) c (n + k) g := by
  intro s
  have hx : x ⟨c, s⟩ = .ok b ⟨c.skip n, s⟩ := hx s
  have hf := hf s
  rw [bind_apply, hx, Cursor.skip_add]
  exact hf

theorem Does.cursor_bind {f : Cursor → Parser σ β} {c : Cursor} {n : Nat} {y : Action σ β}
    (h : Does (f c) c n y) : Does (cursor >>= f) c n y := h

/-- The same, with the number of characters and the action written in another way. -/
theorem Does.of_eq {x : Parser σ β} {c : Cursor} {n k : Nat} {y z : Action σ β}
    (h : Does x c n y) (hn : n = k) (hy : y = z) : Does x c k z := by
  subst hn hy
  exact h

/-! ## The productions by their levels -/

def construct (m : Clocked σ α) : Level → Parser σ α
  | .expression => expression m
  | .term => term m
  | .factor => factor m

/-- What the production of a level goes on with behind its operands so far. -/
def constructAfter (m : Clocked σ α) : Level → α → Parser σ α
  | .expression => expressionAfter m
  | .term => termAfter m
  | .factor => pure

/-- The loops of the two levels are one: they differ in their operators and operands only. -/
theorem constructAfter_eq (m : Clocked σ α) (level : Level) (lhs : α) :
    constructAfter m level lhs = (do
      match (← cursor).operator?.filter level.admits with
      | none => pure lhs
      | some op =>
        let held ← act m (m.hold lhs)
        scan (Lexeme.symbol op.toChar)
        let rhs ← construct m level.operand
        let value ← act m (m.combine op held rhs)
        constructAfter m level value) := by
  cases level with
  | expression => exact expressionAfter_eq m lhs
  | term => exact termAfter_eq m lhs
  -- a factor has no operators, so its loop ends at once
  | factor =>
    funext p
    have hnone : p.cursor.operator?.filter Level.factor.admits = none := by
      cases p.cursor.operator? <;> rfl
    rw [cursor_bind_apply, hnone]
    rfl

/-- The loop of a level ends where no operator of the level is at hand. -/
theorem constructAfter_does_of_stopsAt (m : Semantics σ α) {level : Level} {c : Cursor} (lhs : α)
    (h : StopsAt (fun x => (Operator.ofChar? x).any level.admits) c.unread) :
    Does (constructAfter m.timeless level lhs) c 0 (pure lhs) := by
  have hnone : c.operator?.filter level.admits = none := by
    rw [Cursor.operator?, Cursor.look_eq_head?]
    cases hhead : c.unread.head? with
    | none => rfl
    | some x =>
      have hx := h x hhead
      rw [Option.bind_some]
      cases hop : Operator.ofChar? x with
      | none => rfl
      | some op =>
        simp only [hop, Option.any_some] at hx
        rw [Option.filter_some, if_neg (by rw [hx]; exact Bool.false_ne_true)]
  rw [constructAfter_eq]
  refine Does.cursor_bind ?_
  rw [hnone]
  exact does_pure lhs c

/-! ## What may stand behind a lexeme -/

/-- A character that a lexeme before it could take for its own: a blank, a digit behind a number, a
parenthesis behind a name. -/
def joins (x : Char) : Bool := isBlank x || x.isDigit || x = '('

/-- What joins nothing is no blank. -/
theorem isBlank_of_joins {x : Char} (h : joins x = false) : isBlank x = false := by
  simp only [joins, Bool.or_eq_false_iff] at h
  exact h.1.1

theorem stopsAt_isBlank {rest : List Char} (h : StopsAt joins rest) : StopsAt isBlank rest :=
  fun x hx => isBlank_of_joins (h x hx)

theorem stopsAt_isDigit {rest : List Char} (h : StopsAt joins rest) :
    StopsAt Char.isDigit rest := by
  intro x hx
  have := h x hx
  simp only [joins, Bool.or_eq_false_iff] at this
  exact this.1.2

theorem isAt_parenthesis {c : Cursor} (h : StopsAt joins c.unread) : c.isAt '(' = false := by
  rw [Cursor.isAt, Cursor.look_eq_head?, decide_eq_false_iff_not]
  intro hhead
  exact absurd (h _ hhead) (by decide)

def isOperatorOf (level : Level) (x : Char) : Bool := (Operator.ofChar? x).any level.admits

/-- The character of an operator is one of its level. -/
@[simp] theorem isOperatorOf_toChar (level : Level) (op : Operator) :
    isOperatorOf level op.toChar = level.admits op := by
  rw [isOperatorOf, Operator.ofChar?_toChar, Option.any_some]

/-- An operator joins nothing that stands before it. -/
theorem joins_toChar (op : Operator) : joins op.toChar = false := by
  cases op <;> rfl

/-- A text stops where its first character is none of those. -/
theorem stopsAt_cons {p : Char → Bool} {x : Char} {rest : List Char} (hx : p x = false) :
    StopsAt p (x :: rest) := by
  rintro y ⟨⟩
  exact hx

/-- Characters of different classes are different. -/
theorem ne_of_class {p : Char → Bool} {x y : Char} (hx : p x = true) (hy : p y = false) :
    x ≠ y := by
  rintro rfl
  rw [hy] at hx
  exact Bool.false_ne_true hx

/-- A character that is none of the four signs is no operator. -/
theorem ofChar?_eq_none {x : Char} (h : ∀ op : Operator, x ≠ op.toChar) :
    Operator.ofChar? x = none := by
  cases hop : Operator.ofChar? x with
  | none => rfl
  | some op => exact absurd (Operator.ofChar?_eq_some_iff.1 hop) (h op)

/-- What begins a factor is no blank. -/
theorem isBlank_of_beginsFactor {x : Char} (h : beginsFactor x = true) : isBlank x = false := by
  cases hblank : isBlank x with
  | false => rfl
  | true =>
    rw [isBlank, Bool.or_eq_true, decide_eq_true_eq, decide_eq_true_eq] at hblank
    rcases hblank with rfl | rfl <;> exact absurd h (by decide)

theorem ofChar?_of_beginsFactor {x : Char} (h : beginsFactor x = true) :
    Operator.ofChar? x = none :=
  ofChar?_eq_none fun op => ne_of_class h (by cases op <;> rfl)

/-- An expression does not begin with a blank. -/
theorem stopsAt_isBlank_of_spelled {calls : Bool} {level : Level} {e : Expr} {s : List Char}
    (h : Expr.Spelled calls level e s) (rest : List Char) : StopsAt isBlank (s ++ rest) := by
  obtain ⟨x, t, rfl, hx | ⟨-, op, -, rfl⟩⟩ := h.exists_cons
  · exact stopsAt_cons (isBlank_of_beginsFactor hx)
  · exact stopsAt_cons (by cases op <;> rfl)

/-! ## Expressions -/

/-- One round of a loop: the operator at hand and the operand behind it. -/
theorem constructAfter_does (m : Semantics σ α) {calls : Bool} {level : Level} {op : Operator}
    {r : Expr} {c : Cursor} {w t rest : List Char} {j : Nat} {y : α → Action σ α} (lhs : α)
    (hop : level.admits op = true) (h : c.unread = op.toChar :: (w ++ (t ++ rest)))
    (hw : Blanks w) (ht : Expr.Spelled calls level.operand r t)
    (hr : ∀ c' : Cursor, c'.unread = t ++ rest →
      Does (construct m.timeless level.operand) c' t.length (r.drive m))
    (hy : ∀ v,
      Does (constructAfter m.timeless level v) (c.skip (w.length + 1 + t.length)) j (y v)) :
    Does (constructAfter m.timeless level lhs) c (w.length + 1 + t.length + j) (do
      let held ← m.hold lhs
      let right ← r.drive m
      let value ← m.combine op held right
      y value) := by
  have hoperator : c.operator?.filter level.admits = some op := by
    rw [Cursor.operator?, Cursor.look_of_unread h, Option.bind_some, Operator.ofChar?_toChar,
      Option.filter_some, if_pos hop]
  have hsymbol : Lexeme.symbol op.toChar c = .ok () (c.skip (w.length + 1)) :=
    Lexeme.symbol_of_spelled h hw (stopsAt_isBlank_of_spelled ht rest)
  have hbehind : (c.skip (w.length + 1)).unread = t ++ rest :=
    Cursor.unread_skip_cons h
  rw [constructAfter_eq]
  refine Does.cursor_bind ?_
  simp only [hoperator]
  -- only the operator and the operand are read; putting aside and combining read nothing
  refine Does.of_eq (n := 0 + (w.length + 1 + (t.length + (0 + j)))) ?_ (by omega) rfl
  refine Does.bind (does_act m (m.hold lhs) c) fun held => ?_
  refine Does.bind_of_pure (does_scan hsymbol) ?_
  refine Does.bind (hr _ hbehind) fun right => ?_
  refine Does.bind (does_act m (m.combine op held right) _) fun value => ?_
  rw [Cursor.skip_zero, ← Cursor.skip_add]
  exact hy value

theorem isAlpha_of_isDigit {x : Char} (h : x.isDigit = true) : x.isAlpha = false := by
  grind [Char.isAlpha, Char.isUpper, Char.isLower, Char.isDigit]

/-- Whether a letter is at hand depends on the first character of what is unread. -/
theorem isAtLetter_eq {c : Cursor} {x : Char} {rest : List Char} (h : c.unread = x :: rest) :
    c.isAtLetter = x.isAlpha := by
  rw [Cursor.isAtLetter, Cursor.look_of_unread h, Option.any_some]

/-- Digits are read up to the first other character, as a literal. -/
theorem number_does (m : Semantics σ α) {c : Cursor} {ds w rest : List Char}
    (h : c.unread = ds ++ w ++ rest) (hds : Digits ds) (hw : Blanks w)
    (hrest : StopsAt joins rest) :
    Does (factor m.timeless) c (ds ++ w).length (m.number (String.ofList ds)) := by
  obtain ⟨d, ds', rfl⟩ := List.exists_cons_of_ne_nil hds.1
  have hd : d.isDigit = true := hds.2 d List.mem_cons_self
  rw [List.append_assoc] at h
  -- a number is what is left when there is neither a parenthesis nor a letter
  have hat : c.isAt '(' = false := Cursor.isAt_of_ne h (ne_of_class hd rfl)
  have hletter : c.isAtLetter = false := by rw [isAtLetter_eq h, isAlpha_of_isDigit hd]
  have hdigits := Lexeme.digits_of_spelled h hds hw (stopsAt_isBlank hrest) (stopsAt_isDigit hrest)
  rw [factor_eq, List.length_append]
  refine Does.cursor_bind ?_
  simp only [hat, hletter, Bool.false_eq_true, if_false]
  exact Does.bind_of_pure (k := 0) (does_scan hdigits) (does_act m _ _)

/-- A letter is read as a name, whatever it is the name of. -/
theorem factor_does_of_isAlpha (m : Semantics σ α) {c : Cursor} {x : Char} {rest : List Char}
    {n : Nat} {y : Action σ α} (h : c.unread = x :: rest) (hx : x.isAlpha = true)
    (hreference : Does (reference m.timeless) c n y) : Does (factor m.timeless) c n y := by
  have hat : c.isAt '(' = false := Cursor.isAt_of_ne h (ne_of_class hx rfl)
  have hletter : c.isAtLetter = true := by rw [isAtLetter_eq h, hx]
  rw [factor_eq]
  refine Does.cursor_bind ?_
  simp only [hat, hletter, Bool.false_eq_true, if_false, if_true]
  exact hreference

/-- A letter without a `(` behind it is a variable. -/
theorem var_does (m : Semantics σ α) {c : Cursor} {x : Char} {w rest : List Char}
    (h : c.unread = x :: w ++ rest) (hx : x.isAlpha = true) (hw : Blanks w)
    (hrest : StopsAt joins rest) :
    Does (factor m.timeless) c (x :: w).length (m.load (nameOf x)) := by
  refine factor_does_of_isAlpha m h hx ?_
  have hletter := Lexeme.letter_of_spelled h hx hw (stopsAt_isBlank hrest)
  have hat : (c.skip (w.length + 1)).isAt '(' = false := by
    refine isAt_parenthesis ?_
    rw [← List.length_cons (a := x), Cursor.unread_skip_append h]
    exact hrest
  refine Does.bind_of_pure (n := w.length + 1) (k := 0) (does_scan hletter) (Does.cursor_bind ?_)
  simp only [hat, Bool.and_false, Bool.false_eq_true, if_false]
  exact does_act m _ _

/-- A letter with `(` and `)` behind it is a call, if there are calls. -/
theorem call_does (m : Semantics σ α) {c : Cursor} {x : Char} {u v w rest : List Char}
    (h : c.unread = x :: (u ++ '(' :: (v ++ ')' :: w)) ++ rest) (hcalls : m.calls = true)
    (hx : x.isAlpha = true) (hu : Blanks u) (hv : Blanks v) (hw : Blanks w)
    (hrest : StopsAt joins rest) :
    Does (factor m.timeless) c (x :: (u ++ '(' :: (v ++ ')' :: w))).length
      (m.call (nameOf x)) := by
  refine factor_does_of_isAlpha m h hx ?_
  -- the text, cut behind each of the three lexemes
  have hname : c.unread = x :: (u ++ '(' :: (v ++ (')' :: (w ++ rest)))) := by simpa using h
  have hletter := Lexeme.letter_of_spelled hname hx hu (stopsAt_cons rfl)
  have hopen : (c.skip (u.length + 1)).unread = '(' :: (v ++ (')' :: (w ++ rest))) :=
    Cursor.unread_skip_cons hname
  have hclose : ((c.skip (u.length + 1)).skip (v.length + 1)).unread = ')' :: (w ++ rest) :=
    Cursor.unread_skip_cons hopen
  have hat : (c.skip (u.length + 1)).isAt '(' = true :=
    Cursor.isAt_of_unread hopen
  have hlength : (x :: (u ++ '(' :: (v ++ ')' :: w))).length =
      u.length + 1 + (v.length + 1 + (w.length + 1 + 0)) := by
    simp only [List.length_cons, List.length_append]
    omega
  have hc : (m.timeless.calls && (c.skip (u.length + 1)).isAt '(') = true := by
    rw [hat]
    exact Bool.and_eq_true_iff.2 ⟨hcalls, rfl⟩
  rw [hlength]
  refine Does.bind_of_pure (does_scan hletter) (Does.cursor_bind ?_)
  rw [if_pos hc]
  refine Does.bind_of_pure (does_scan (Lexeme.symbol_of_spelled hopen hv (stopsAt_cons rfl))) ?_
  refine Does.bind_of_pure (does_scan
    (Lexeme.symbol_of_spelled hclose hw (stopsAt_isBlank hrest))) ?_
  exact does_act m _ _

/-- The parentheses around an expression leave no trace. -/
theorem parens_does (m : Semantics σ α) {calls : Bool} {c : Cursor} {e : Expr}
    {s u w rest : List Char} (h : c.unread = '(' :: (u ++ (s ++ ')' :: w)) ++ rest)
    (he : Expr.Spelled calls .expression e s) (hu : Blanks u) (hw : Blanks w)
    (hrest : StopsAt joins rest)
    (hinner : ∀ c' : Cursor, c'.unread = s ++ ')' :: (w ++ rest) →
      Does (expression m.timeless) c' s.length (e.drive m)) :
    Does (factor m.timeless) c ('(' :: (u ++ (s ++ ')' :: w))).length (e.drive m) := by
  have hopen : c.unread = '(' :: (u ++ (s ++ ')' :: (w ++ rest))) := by simpa using h
  -- the expression stands between two symbols, which have blanks behind them
  have hinside : (c.skip (u.length + 1)).unread = s ++ ')' :: (w ++ rest) :=
    Cursor.unread_skip_cons hopen
  have hclose : ((c.skip (u.length + 1)).skip s.length).unread = ')' :: (w ++ rest) :=
    Cursor.unread_skip_append hinside
  have hat : c.isAt '(' = true := Cursor.isAt_of_unread hopen
  have hlength : ('(' :: (u ++ (s ++ ')' :: w))).length =
      u.length + 1 + (s.length + (w.length + 1 + 0)) := by
    simp only [List.length_cons, List.length_append]
    omega
  rw [factor_eq, hlength]
  refine Does.cursor_bind ?_
  rw [if_pos hat]
  refine Does.bind_of_pure (does_scan (Lexeme.symbol_of_spelled hopen hu
    (stopsAt_isBlank_of_spelled he _))) ?_
  refine Does.of_eq (Does.bind (hinner _ hinside) fun value => ?_) rfl (bind_pure _)
  exact Does.bind_of_pure (does_scan (Lexeme.symbol_of_spelled hclose hw (stopsAt_isBlank hrest)))
    (does_pure value _)

/-- Behind a factor no loop goes on, so what goes on behind it is what comes next. -/
theorem Does.factor_then {m : Clocked σ α} {c : Cursor} {n j : Nat} {d : Action σ α}
    {y : α → Action σ α} (hd : Does (factor m) c n d)
    (hy : ∀ v, Does (constructAfter m .factor v) (c.skip n) j (y v)) :
    Does (construct m .factor) c (n + j) (d >>= y) := by
  have hbind : construct m .factor = factor m >>= constructAfter m .factor := (bind_pure _).symm
  rw [hbind]
  exact hd.bind hy

/-- Where no operator of the operands' level is at hand, the loop of the operands has ended. -/
theorem Does.of_construct {m : Semantics σ α} {level : Level} {c : Cursor} {s rest : List Char}
    {d : Action σ α} (h : c.unread = s ++ rest) (hrest : StopsAt (isOperatorOf level) rest)
    (hd : ∀ j (y : α → Action σ α),
      (∀ v, Does (constructAfter m.timeless level v) (c.skip s.length) j (y v)) →
      Does (construct m.timeless level) c (s.length + j) (d >>= y)) :
    Does (construct m.timeless level) c s.length d := by
  have hstops : StopsAt (isOperatorOf level) (c.skip s.length).unread := by
    rw [Cursor.unread_skip_append h]
    exact hrest
  exact (hd 0 pure fun v => constructAfter_does_of_stopsAt m v hstops).of_eq rfl (bind_pure d)

/-- Behind a factor there is no loop. -/
theorem stopsAt_isOperatorOf_factor (rest : List Char) : StopsAt (isOperatorOf .factor) rest := by
  intro x _
  cases hop : Operator.ofChar? x with
  | none => rw [isOperatorOf, hop]; rfl
  | some op => rw [isOperatorOf, hop]; rfl

/-- What begins a factor is no sign. -/
theorem isAtAdditive_of_beginsFactor {c : Cursor} {x : Char} {rest : List Char}
    (h : c.unread = x :: rest) (hx : beginsFactor x = true) : c.isAtAdditive = false := by
  rw [Cursor.isAtAdditive, Cursor.operator?, Cursor.look_of_unread h, Option.bind_some,
    ofChar?_of_beginsFactor hx]
  rfl

/-- A term is an expression unless a product goes on behind it. -/
theorem expression_does_of_term {m : Semantics σ α} {calls : Bool} {c : Cursor} {e : Expr}
    {s rest : List Char} {j : Nat} {y : α → Action σ α} (he : Expr.Spelled calls .term e s)
    (h : c.unread = s ++ rest) (hterm : Does (term m.timeless) c s.length (e.drive m))
    (hy : ∀ v, Does (expressionAfter m.timeless v) (c.skip s.length) j (y v)) :
    Does (expression m.timeless) c (s.length + j) (e.drive m >>= y) := by
  obtain ⟨x, t, rfl, hx | ⟨hlevel, -⟩⟩ := he.exists_cons
  · have hsign : c.isAtAdditive = false := isAtAdditive_of_beginsFactor h hx
    rw [expression_eq]
    refine Does.cursor_bind ?_
    simp only [hsign, Bool.false_eq_true, if_false]
    exact hterm.bind hy
  · cases hlevel

/-- A construct of a level that is spelled at hand is read as its tree, and then as the loop of the
level goes on behind it. Behind an expression no product may go on: its last term would take it. -/
theorem construct_does (m : Semantics σ α) {level : Level} {e : Expr} {s : List Char}
    (he : Expr.Spelled m.calls level e s) :
    ∀ (c : Cursor) (rest : List Char), c.unread = s ++ rest → StopsAt joins rest →
      (level = .expression → StopsAt (isOperatorOf .term) rest) →
      ∀ (j : Nat) (y : α → Action σ α),
        (∀ v, Does (constructAfter m.timeless level v) (c.skip s.length) j (y v)) →
        Does (construct m.timeless level) c (s.length + j) (e.drive m >>= y) := by
  induction he with
  | number hds hw =>
    intro c rest h hrest _ j y hy
    exact (number_does m h hds hw hrest).factor_then hy
  | var hc hw =>
    intro c rest h hrest _ j y hy
    exact (var_does m h hc hw hrest).factor_then hy
  | call hcalls hc hu hv hw =>
    intro c rest h hrest _ j y hy
    exact (call_does m h hcalls hc hu hv hw hrest).factor_then hy
  | parens he hu hw ih =>
    intro c rest h hrest _ j y hy
    -- whatever is inside ends at the `)`, where no loop goes on
    refine Does.factor_then (parens_does m h he hu hw hrest fun c' h' => ?_) hy
    exact Does.of_construct h' (stopsAt_cons rfl)
      (ih c' _ h' (stopsAt_cons rfl) fun _ => stopsAt_cons rfl)
  | term he ih =>
    intro c rest h hrest _ j y hy
    have hfactor : Does (factor m.timeless) c _ _ := Does.of_construct h
      (stopsAt_isOperatorOf_factor rest) (ih c rest h hrest fun hlevel => nomatch hlevel)
    rw [construct, term_eq]
    exact hfactor.bind hy
  | expression he ih =>
    intro c rest h hrest hproduct j y hy
    have hterm : Does (term m.timeless) c _ _ := Does.of_construct h (hproduct rfl)
      (ih c rest h hrest fun hlevel => nomatch hlevel)
    exact expression_does_of_term he h hterm hy
  | @binary level op l r s t w hop hl hr hw ihl ihr =>
    intro c rest h hrest hproduct j y hy
    have hl' : c.unread = s ++ (op.toChar :: (w ++ (t ++ rest))) := by simpa using h
    have hbehind : (c.skip s.length).unread = op.toChar :: (w ++ (t ++ rest)) :=
      Cursor.unread_skip_append hl'
    -- what the left operand must not run into is its own operator: a product in a sum would
    have hsum : level = .expression →
        StopsAt (isOperatorOf .term) (op.toChar :: (w ++ (t ++ rest))) := by
      rintro rfl
      refine stopsAt_cons ?_
      rw [isOperatorOf_toChar]
      cases op <;> first | rfl | cases hop
    have hright : ∀ c' : Cursor, c'.unread = t ++ rest →
        Does (construct m.timeless level.operand) c' t.length (r.drive m) := by
      intro c' h'
      refine Does.of_construct h' ?_ (ihr c' rest h' hrest ?_)
      · cases level with
        | expression => exact hproduct rfl
        | term => exact stopsAt_isOperatorOf_factor rest
        | factor => exact stopsAt_isOperatorOf_factor rest
      · cases level <;> exact fun hlevel => nomatch hlevel
    have hlength : (s ++ op.toChar :: (w ++ t)).length = s.length + (w.length + 1 + t.length) := by
      simp only [List.length_cons, List.length_append]
      omega
    rw [hlength, Cursor.skip_add] at hy
    -- the loop goes on behind the left operand with this round, and then as it was given
    have hround := fun lhs => constructAfter_does m lhs hop hbehind hw hr hright hy
    refine Does.of_eq (ihl c _ hl' (stopsAt_cons (joins_toChar op)) hsum _ _ hround) ?_ ?_
    · rw [hlength]
      omega
    · simp only [Expr.drive, bind_assoc]
  | @signed op r t w hop hr hw ih =>
    intro c rest h hrest hproduct j y hy
    have h' : c.unread = op.toChar :: (w ++ (t ++ rest)) := by simpa using h
    have hsign : c.isAtAdditive = true := by
      rw [Cursor.isAtAdditive, Cursor.operator?, Cursor.look_of_unread h', Option.bind_some,
        Operator.ofChar?_toChar, Option.any_some, hop]
    have hright : ∀ c' : Cursor, c'.unread = t ++ rest →
        Does (construct m.timeless .term) c' t.length (r.drive m) := fun c' hc' =>
      Does.of_construct hc' (hproduct rfl) (ih c' rest hc' hrest fun hlevel => nomatch hlevel)
    have hlength : (op.toChar :: (w ++ t)).length = w.length + 1 + t.length := by
      simp only [List.length_cons, List.length_append]
      omega
    -- the sign itself is not consumed by the zero: the loop finds it as its first operator
    have hadmits : Level.expression.admits op = true := hop
    rw [hlength] at hy ⊢
    have hround := fun lhs => constructAfter_does m lhs hadmits h' hw hr hright hy
    rw [construct, expression_eq]
    refine Does.cursor_bind ?_
    simp only [hsign, if_true]
    refine Does.of_eq (Does.bind (does_act m m.zero c) hround) (Nat.zero_add _) ?_
    simp only [Expr.drive, bind_assoc]

/-- An expression that is spelled at hand is read as its tree. -/
theorem expression_does (m : Semantics σ α) {e : Expr} {c : Cursor} {s rest : List Char}
    (he : Expr.Spelled m.calls .expression e s) (h : c.unread = s ++ rest)
    (hrest : StopsAt joins rest) (hproduct : StopsAt (isOperatorOf .term) rest)
    (hsum : StopsAt (isOperatorOf .expression) rest) :
    Does (expression m.timeless) c s.length (e.drive m) :=
  Does.of_construct h hsum (construct_does m he c rest h hrest fun _ => hproduct)

/-! ## Statements -/

/-- The characters that may stand behind a statement: a line end, the next statement or `;`. -/
def followsStatement (x : Char) : Bool := x = '\r' || x = '\n' || x = ';' || beginsStatement x

/-- What follows a statement is no operator. -/
theorem isOperatorOf_of_followsStatement {x : Char} (h : followsStatement x = true)
    (level : Level) : isOperatorOf level x = false := by
  rw [isOperatorOf, ofChar?_eq_none fun op => ne_of_class h (by cases op <;> rfl)]
  rfl

/-- A letter joins nothing that stands before it. -/
theorem joins_of_isAlpha {x : Char} (h : x.isAlpha = true) : joins x = false := by
  have hblank : isBlank x = false := isBlank_of_beginsFactor (by simp [beginsFactor, h])
  have hdigit : x.isDigit = false := by
    cases hd : x.isDigit with
    | false => rfl
    | true => exact absurd h (by rw [isAlpha_of_isDigit hd]; exact Bool.false_ne_true)
  have hparen : decide (x = '(') = false := decide_eq_false (ne_of_class h rfl)
  rw [joins, hblank, hdigit, hparen]
  rfl

/-- Nor does anything else that follows a statement. -/
theorem joins_of_followsStatement {x : Char} (h : followsStatement x = true) :
    joins x = false := by
  simp only [followsStatement, beginsStatement, Bool.or_eq_true, decide_eq_true_eq] at h
  rcases h with ((rfl | rfl) | rfl) | (rfl | rfl) | hx
  · rfl
  · rfl
  · rfl
  · rfl
  · rfl
  · exact joins_of_isAlpha hx

theorem isBlank_of_beginsStatement {x : Char} (h : beginsStatement x = true) :
    isBlank x = false :=
  isBlank_of_joins (joins_of_followsStatement (by simp [followsStatement, h]))

/-- Nothing of the text behind a statement is taken for a part of it. -/
def Follows (rest : List Char) : Prop := ∃ x t, rest = x :: t ∧ followsStatement x = true

theorem Follows.stopsAt_joins {rest : List Char} (h : Follows rest) : StopsAt joins rest := by
  obtain ⟨x, t, rfl, hx⟩ := h
  exact stopsAt_cons (joins_of_followsStatement hx)

theorem Follows.stopsAt_isOperatorOf {rest : List Char} (h : Follows rest) (level : Level) :
    StopsAt (isOperatorOf level) rest := by
  obtain ⟨x, t, rfl, hx⟩ := h
  exact stopsAt_cons (isOperatorOf_of_followsStatement hx level)

/-- An output prints its variable. -/
theorem output_does (m : Semantics σ α) {c : Cursor} {x : Char} {u w rest : List Char}
    (h : c.unread = '!' :: (u ++ x :: w) ++ rest) (hx : x.isAlpha = true) (hu : Blanks u)
    (hw : Blanks w) (hrest : StopsAt joins rest) :
    Does (output m.timeless) c ('!' :: (u ++ x :: w)).length (m.print (nameOf x)) := by
  have hsymbol : c.unread = '!' :: (u ++ x :: (w ++ rest)) := by simpa using h
  have hname : (c.skip (u.length + 1)).unread = x :: (w ++ rest) :=
    Cursor.unread_skip_cons hsymbol
  have hblank : isBlank x = false := isBlank_of_beginsFactor (by simp [beginsFactor, hx])
  have hlength : ('!' :: (u ++ x :: w)).length = u.length + 1 + (w.length + 1 + 0) := by
    simp only [List.length_cons, List.length_append]
    omega
  rw [hlength]
  refine Does.bind_of_pure (does_scan (Lexeme.symbol_of_spelled hsymbol hu
    (stopsAt_cons hblank))) ?_
  refine Does.bind_of_pure (does_scan (Lexeme.letter_of_spelled hname hx hw
    (stopsAt_isBlank hrest))) ?_
  exact does_act m _ _

/-- An input assigns the value of its digits. -/
theorem input_does (m : Semantics σ α) {c : Cursor} {x : Char} {ds u v w rest : List Char}
    (h : c.unread = '?' :: (u ++ x :: (v ++ (ds ++ w))) ++ rest) (hx : x.isAlpha = true)
    (hds : Digits ds) (hu : Blanks u) (hv : Blanks v) (hw : Blanks w)
    (hrest : StopsAt joins rest) :
    Does (input m.timeless) c ('?' :: (u ++ x :: (v ++ (ds ++ w)))).length
      ((Stmt.input (nameOf x) (String.ofList ds)).drive m) := by
  -- the text, cut behind each of the three lexemes
  have hsymbol : c.unread = '?' :: (u ++ x :: (v ++ (ds ++ (w ++ rest)))) := by simpa using h
  have hname : (c.skip (u.length + 1)).unread = x :: (v ++ (ds ++ (w ++ rest))) :=
    Cursor.unread_skip_cons hsymbol
  have hdigits : ((c.skip (u.length + 1)).skip (v.length + 1)).unread = ds ++ (w ++ rest) :=
    Cursor.unread_skip_cons hname
  have hblank : isBlank x = false := isBlank_of_beginsFactor (by simp [beginsFactor, hx])
  have hbehind : StopsAt isBlank (ds ++ (w ++ rest)) := by
    obtain ⟨d, ds', rfl⟩ := List.exists_cons_of_ne_nil hds.1
    refine stopsAt_cons (isBlank_of_beginsFactor ?_)
    rw [beginsFactor, hds.2 d List.mem_cons_self]
    rfl
  have hlength : ('?' :: (u ++ x :: (v ++ (ds ++ w)))).length =
      u.length + 1 + (v.length + 1 + (ds.length + w.length + (0 + 0))) := by
    simp only [List.length_cons, List.length_append]
    omega
  rw [hlength]
  refine Does.bind_of_pure (does_scan (Lexeme.symbol_of_spelled hsymbol hu
    (stopsAt_cons hblank))) ?_
  refine Does.bind_of_pure (does_scan (Lexeme.letter_of_spelled hname hx hv hbehind)) ?_
  refine Does.bind_of_pure (does_scan (Lexeme.digits_of_spelled hdigits hds hw
    (stopsAt_isBlank hrest) (stopsAt_isDigit hrest))) ?_
  exact Does.bind (does_act m _ _) fun value => does_act m _ _

/-- An assignment computes its expression, then assigns the value. -/
theorem assignment_does (m : Semantics σ α) {c : Cursor} {x : Char} {e : Expr}
    {s u v rest : List Char} (h : c.unread = x :: (u ++ '=' :: (v ++ s)) ++ rest)
    (hx : x.isAlpha = true) (hu : Blanks u) (hv : Blanks v)
    (he : Expr.Spelled m.calls .expression e s) (hrest : Follows rest) :
    Does (assignment m.timeless) c (x :: (u ++ '=' :: (v ++ s))).length
      ((Stmt.assign (nameOf x) e).drive m) := by
  have hname : c.unread = x :: (u ++ '=' :: (v ++ (s ++ rest))) := by simpa using h
  have hsymbol : (c.skip (u.length + 1)).unread = '=' :: (v ++ (s ++ rest)) :=
    Cursor.unread_skip_cons hname
  have hvalue : ((c.skip (u.length + 1)).skip (v.length + 1)).unread = s ++ rest :=
    Cursor.unread_skip_cons hsymbol
  have hlength : (x :: (u ++ '=' :: (v ++ s))).length =
      u.length + 1 + (v.length + 1 + (s.length + 0)) := by
    simp only [List.length_cons, List.length_append]
    omega
  rw [assignment_eq, hlength]
  refine Does.bind_of_pure (does_scan (Lexeme.letter_of_spelled hname hx hu
    (stopsAt_cons rfl))) ?_
  refine Does.bind_of_pure (does_scan (Lexeme.symbol_of_spelled hsymbol hv
    (stopsAt_isBlank_of_spelled he rest))) ?_
  refine Does.bind (expression_does m he hvalue hrest.stopsAt_joins
    (hrest.stopsAt_isOperatorOf .term) (hrest.stopsAt_isOperatorOf .expression)) fun value => ?_
  exact does_act m _ _

/-- A statement that is spelled at hand is read as its tree. -/
theorem statement_does (m : Semantics σ α) {statement' : Stmt} {c : Cursor} {s rest : List Char}
    (hs : Stmt.Spelled m.calls statement' s) (h : c.unread = s ++ rest) (hrest : Follows rest) :
    Does (statement m.timeless) c s.length (statement'.drive m) := by
  rw [statement_eq]
  refine Does.cursor_bind ?_
  cases hs with
  | print hc hu hw =>
    have hat : c.isAt '!' = true := Cursor.isAt_of_unread h
    rw [if_pos hat]
    exact output_does m h hc hu hw hrest.stopsAt_joins
  | input hc hds hu hv hw =>
    have hat : c.isAt '!' = false := by rw [Cursor.isAt_eq h]; rfl
    have hat' : c.isAt '?' = true := Cursor.isAt_of_unread h
    simp only [hat, hat', Bool.false_eq_true, if_false, if_true]
    exact input_does m h hc hds hu hv hw hrest.stopsAt_joins
  -- a letter is neither of the two symbols
  | assign hc hu hv he =>
    have hat : c.isAt '!' = false := Cursor.isAt_of_ne h (ne_of_class hc rfl)
    have hat' : c.isAt '?' = false := Cursor.isAt_of_ne h (ne_of_class hc rfl)
    simp only [hat, hat', Bool.false_eq_true, if_false]
    exact assignment_does m h hc hu hv he hrest

/-! ## Programs -/

/-- A line end may stand between a statement and what follows it. -/
theorem LineEnd.follows {e rest : List Char} (he : LineEnd e) (hrest : Follows rest) :
    Follows (e ++ rest) := by
  cases he with
  | none => exact hrest
  | cr hw => exact ⟨'\r', _, rfl, rfl⟩
  | lf hw => exact ⟨'\n', _, rfl, rfl⟩
  | crlf hw => exact ⟨'\r', _, rfl, rfl⟩

/-- One line end is read, or none if there is none. -/
theorem lineEnd_does {c : Cursor} {x : Char} {e rest : List Char} (he : LineEnd e)
    (h : c.unread = e ++ x :: rest) (hx : x = ';' ∨ beginsStatement x = true) :
    ∃ seen, Does (scan Lexeme.lineEnd : Parser σ Bool) c e.length (pure seen) := by
  have hfollows : followsStatement x = true := by
    rcases hx with rfl | hx
    · rfl
    · simp [followsStatement, hx]
  have hblank : isBlank x = false := isBlank_of_joins (joins_of_followsStatement hfollows)
  -- what comes next is not a second line end
  have hne (y : Char) (hy : beginsStatement y = false) (hy' : y ≠ ';') :
      decide (x = y) = false := by
    rw [decide_eq_false_iff_not]
    rintro rfl
    rcases hx with rfl | hx
    · exact hy' rfl
    · rw [hy] at hx
      exact Bool.false_ne_true hx
  obtain ⟨seen, hseen⟩ := Lexeme.lineEnd_of_spelled h he (stopsAt_cons hblank)
    (stopsAt_cons (hne '\r' rfl (by decide))) (stopsAt_cons (hne '\n' rfl (by decide)))
  exact ⟨seen, does_scan hseen⟩

/-- Statements that are spelled at hand, with `;` behind them, are read as their trees. -/
theorem statements_does (m : Semantics σ α) {statements : List Stmt} {s : List Char}
    (hs : Statements.Spelled m.calls statements s) :
    ∀ (c : Cursor) (rest : List Char), c.unread = s ++ ';' :: rest →
      Does (program m.timeless) c s.length (driveAll m statements) := by
  induction hs with
  | @last statement' t e hs he =>
    intro c rest h
    rw [List.append_assoc] at h
    have hbehind : (c.skip t.length).unread = e ++ ';' :: rest := Cursor.unread_skip_append h
    have hend : ((c.skip t.length).skip e.length).unread = ';' :: rest :=
      Cursor.unread_skip_append hbehind
    have hat : ((c.skip t.length).skip e.length).isAt ';' = true :=
      Cursor.isAt_of_unread hend
    obtain ⟨seen, hseen⟩ := lineEnd_does he hbehind (Or.inl rfl)
    rw [program_eq, List.length_append]
    refine Does.bind (statement_does m hs h (LineEnd.follows he ⟨';', rest, rfl, rfl⟩)) fun _ => ?_
    refine Does.bind_of_pure (k := 0) hseen (Does.cursor_bind ?_)
    rw [if_pos hat]
    exact does_pure () _
  | @cons statement' statements t e u hs he hss ih =>
    intro c rest h
    obtain ⟨x, u', hu, hx⟩ := hss.exists_cons
    have h : c.unread = t ++ (e ++ (u ++ ';' :: rest)) := by simpa using h
    have hbehind : (c.skip t.length).unread = e ++ (u ++ ';' :: rest) :=
      Cursor.unread_skip_append h
    have hnext : ((c.skip t.length).skip e.length).unread = u ++ ';' :: rest :=
      Cursor.unread_skip_append hbehind
    -- the next statement does not begin with `;`, so the program goes on
    have hfollows : Follows (u ++ ';' :: rest) := by
      rw [hu]
      exact ⟨x, _, rfl, by simp [followsStatement, hx]⟩
    have hat : ((c.skip t.length).skip e.length).isAt ';' = false := by
      rw [hu] at hnext
      exact Cursor.isAt_of_ne hnext (ne_of_class hx rfl)
    obtain ⟨seen, hseen⟩ := lineEnd_does he (by rw [hbehind, hu]; rfl) (Or.inr hx)
    have hlength : (t ++ (e ++ u)).length = t.length + (e.length + u.length) := by
      rw [List.length_append, List.length_append]
    rw [program_eq, hlength]
    refine Does.bind (statement_does m hs h (LineEnd.follows he hfollows)) fun _ => ?_
    refine Does.bind_of_pure hseen (Does.cursor_bind ?_)
    simp only [hat, Bool.false_eq_true, if_false]
    exact ih _ rest hnext

end OnePass.Grammar
