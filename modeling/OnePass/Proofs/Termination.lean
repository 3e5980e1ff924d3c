import OnePass.Proofs.Progress

/-!
# Parsing ends

The productions recurse on how much of the text is left, so they end by their very form. The grammar
knows no such bound: `expression`, `term` and `factor` call one another, and each loop goes on until
a character says otherwise. Here it is written down as *code* without bounds (`Code.body`), in which
procedures call one another freely, a loop is a procedure that calls itself at its end, and the
loops of the lexemes over their characters are among them. That a run of code has ended, after
so many rounds of a program, is defined by induction (`Code.Runs`), so code that goes on forever
has no run.

Every call has a run, wherever the cursor stands, and it comes to what the production comes to
(`exists_runs`), for between a call and a call of the same procedure inside it something is
consumed. The run is the only one (`Code.Runs.unique`), and a program has at most one round for two
characters and one more.
-/

namespace OnePass.Grammar

variable {σ α β γ : Type}

/-! ## Code -/

/-- The procedures of a parser with values `α`, by the type of what they answer. -/
inductive Procedure (α : Type) : Type → Type where
  /-- The loop of a lexeme over characters with a property. -/
  | run (p : Char → Bool) : Procedure α (List Char)
  | factor : Procedure α α
  | termAfter (lhs : α) : Procedure α α
  | term : Procedure α α
  | expressionAfter (lhs : α) : Procedure α α
  | expression : Procedure α α
  | assignment : Procedure α Unit
  | statement : Procedure α Unit
  | assignmentLine : Procedure α Unit
  | program : Procedure α Unit

/-- What takes no loop and no call. -/
inductive Basic (σ : Type) : Type → Type 1 where
  | pure {β : Type} (b : β) : Basic σ β
  | missing {β : Type} (what : String) : Basic σ β
  | cursor : Basic σ Cursor
  | advance : Basic σ Unit
  | act {β : Type} (action : Action σ β) : Basic σ β

/-- Code in which procedures are called. -/
inductive Code (σ α : Type) : Type → Type 1 where
  | basic {β : Type} (x : Basic σ β) : Code σ α β
  | call {β : Type} (P : Procedure α β) : Code σ α β
  | bind {β γ : Type} (x : Code σ α β) (f : β → Code σ α γ) : Code σ α γ

namespace Code

instance : Monad (Code σ α) where
  pure b := .basic (.pure b)
  bind := .bind

def cursor : Code σ α Cursor := .basic .cursor

def advance : Code σ α Unit := .basic .advance

def missing (what : String) : Code σ α β := .basic (.missing what)

def act (action : Action σ β) : Code σ α β := .basic (.act action)

def run (p : Char → Bool) : Code σ α (List Char) := .call (.run p)

/-! ### Lexemes -/

/-- A symbol and the blanks behind it. -/
def symbol (c : Char) : Code σ α Unit := do
  if (← cursor).isAt c then
    advance
    let _ ← run isBlank
  else
    missing ("\"" ++ c.toString ++ "\"")

/-- A letter, which stands for its upper case, and the blanks behind it. -/
def letter : Code σ α String := do
  match (← cursor).look.filter Char.isAlpha with
  | some c =>
    advance
    let _ ← run isBlank
    pure c.toUpper.toString
  | none => missing "Name"

/-- A run of digits, of which there is at least one, and the blanks behind it. -/
def digits : Code σ α String := do
  match ← run Char.isDigit with
  | [] => missing "Integer"
  | c :: cs =>
    let _ ← run isBlank
    pure (String.ofList (c :: cs))

/-- A line end with the blanks behind it, or nothing. It answers whether it was there. -/
def lineEnd : Code σ α Bool := do
  match (← cursor).look with
  | some '\r' =>
    advance
    if (← cursor).isAt '\n' then advance
    let _ ← run isBlank
    pure true
  | some '\n' =>
    advance
    let _ ← run isBlank
    pure true
  | _ => pure false

/-! ### Productions that only read lexemes -/

/-- A variable or, where there are calls, a call. -/
def reference (m : Clocked σ α) : Code σ α α := do
  let name ← letter
  if m.calls && (← cursor).isAt '(' then
    symbol '('
    symbol ')'
    act (m.call name)
  else
    act (m.load name)

/-- An output of a variable. -/
def output (m : Clocked σ α) : Code σ α Unit := do
  symbol '!'
  let name ← letter
  act (m.print name)

/-- A variable that is given a number. -/
def input (m : Clocked σ α) : Code σ α Unit := do
  symbol '?'
  let name ← letter
  let digits ← digits
  let value ← act (m.number digits)
  act (m.assign name value)

/-- The loop of a sum or a product: one round, and the loop again. -/
def loop (m : Clocked σ α) (level : Operator → Bool) (operand : Procedure α α)
    (again : α → Procedure α α) (lhs : α) : Code σ α α := do
  match (← cursor).operator?.filter level with
  | none => pure lhs
  | some op =>
    let held ← act (m.hold lhs)
    symbol op.toChar
    let rhs ← call operand
    let value ← act (m.combine op held rhs)
    call (again value)

/-- What a procedure does when it is called. -/
def body (m : Clocked σ α) : {β : Type} → Procedure α β → Code σ α β
  | _, .run p => do
    match (← cursor).look.filter p with
    | none => pure []
    | some c =>
      advance
      let cs ← run p
      pure (c :: cs)
  | _, .factor => do
    let here ← cursor
    if here.isAt '(' then
      symbol '('
      let value ← call .expression
      symbol ')'
      pure value
    else if here.isAtLetter then
      reference m
    else
      let digits ← digits
      act (m.number digits)
  | _, .termAfter lhs => loop m Operator.isMultiplicative .factor .termAfter lhs
  | _, .term => do
    let lhs ← call .factor
    call (.termAfter lhs)
  | _, .expressionAfter lhs => loop m Operator.isAdditive .term .expressionAfter lhs
  | _, .expression => do
    let lhs ← if (← cursor).isAtAdditive then act m.zero else call .term
    call (.expressionAfter lhs)
  | _, .assignment => do
    let name ← letter
    symbol '='
    let value ← call .expression
    act (m.assign name value)
  | _, .statement => do
    let here ← cursor
    if here.isAt '!' then output m
    else if here.isAt '?' then input m
    else call .assignment
  | _, .assignmentLine => do
    call .assignment
    unless (← lineEnd) do
      missing "NewLine"
  | _, .program => do
    call .statement
    let _ ← lineEnd
    -- the next round
    unless (← cursor).isAt ';' do
      call .program

end Code

/-! ## Runs -/

/-- An advance of the cursor. -/
def advance : Parser σ Unit := scan fun c => .ok () c.advance

/-- A run of characters with a property. -/
def run (p : Char → Bool) : Parser σ (List Char) := scan fun c =>
  .ok (c.takeWhile p).1 (c.takeWhile p).2

def Basic.parser (m : Clocked σ α) : {β : Type} → Basic σ β → Parser σ β
  | _, .pure b => Pure.pure b
  | _, .missing what => Grammar.missing what
  | _, .cursor => Grammar.cursor
  | _, .advance => Grammar.advance
  | _, .act action => Grammar.act m action

/-- The rounds that a call begins by itself: only a call of a program does. -/
def Procedure.round {β : Type} : Procedure α β → Nat
  | .program => 1
  | _ => 0

/-- The code, run from a place, ends after so many rounds of a program, with the result. -/
inductive Code.Runs (m : Clocked σ α) : {β : Type} → Code σ α β → Progress σ → Nat →
    EStateM.Result Fault (Progress σ) β → Prop where
  | basic {β : Type} (x : Basic σ β) (p : Progress σ) : Runs m (.basic x) p 0 (x.parser m p)
  | call {β : Type} (P : Procedure α β) {p : Progress σ} {n : Nat}
      {r : EStateM.Result Fault (Progress σ) β} (h : Runs m (body m P) p n r) :
      Runs m (.call P) p (P.round + n) r
  | bind_ok {β γ : Type} {x : Code σ α β} {f : β → Code σ α γ} {p q : Progress σ} {n k : Nat}
      {b : β} {r : EStateM.Result Fault (Progress σ) γ} (hx : Runs m x p n (.ok b q))
      (hf : Runs m (f b) q k r) : Runs m (.bind x f) p (n + k) r
  | bind_error {β γ : Type} {x : Code σ α β} {f : β → Code σ α γ} {p q : Progress σ} {n : Nat}
      {fault : Fault} (hx : Runs m x p n (.error fault q)) :
      Runs m (.bind x f) p n (.error fault q)

/-! ## The productions do what the procedures do -/

/-- The cursor has gone over the run, and the run is what it has gone over. -/
theorem run_apply (f : Char → Bool) (p : Progress σ) :
    run f p = .ok (p.cursor.unread.takeWhile f)
      { p with cursor := p.cursor.skip (p.cursor.unread.takeWhile f).length } := by
  show EStateM.Result.ok (p.cursor.takeWhile f).1 { p with cursor := (p.cursor.takeWhile f).2 } = _
  rw [Cursor.takeWhile_eq]

/-- The production, or the loop of the cursor, that a procedure stands for. -/
def Procedure.parser (m : Clocked σ α) : {β : Type} → Procedure α β → Parser σ β
  | _, .run p => Grammar.run p
  | _, .factor => Grammar.factor m
  | _, .termAfter lhs => Grammar.termAfter m lhs
  | _, .term => Grammar.term m
  | _, .expressionAfter lhs => Grammar.expressionAfter m lhs
  | _, .expression => Grammar.expression m
  | _, .assignment => Grammar.assignment m
  | _, .statement => Grammar.statement m
  | _, .assignmentLine => Grammar.assignmentLine m
  | _, .program => Grammar.program m

/-- The parser that code comes to if each call does what the production does. -/
def Code.parser (m : Clocked σ α) : {β : Type} → Code σ α β → Parser σ β
  | _, .basic x => x.parser m
  | _, .call P => P.parser m
  | _, .bind x f => x.parser m >>= fun b => (f b).parser m

namespace Code

variable {m : Clocked σ α}

/-- Code behind code comes to a parser behind a parser. -/
@[simp] theorem parser_bind (x : Code σ α β) (f : β → Code σ α γ) :
    (x >>= f).parser m = x.parser m >>= fun b => (f b).parser m := rfl

@[simp] theorem parser_pure (b : β) : (pure b : Code σ α β).parser m = pure b := rfl

@[simp] theorem parser_call (P : Procedure α β) : (call P : Code σ α β).parser m = P.parser m := rfl

@[simp] theorem parser_cursor : (cursor : Code σ α Cursor).parser m = Grammar.cursor := rfl

@[simp] theorem parser_act (action : Action σ β) :
    (act action : Code σ α β).parser m = Grammar.act m action := rfl

/-- A choice is made in the same way in both. -/
@[simp] theorem parser_ite (c : Prop) [Decidable c] (x y : Code σ α β) :
    (if c then x else y).parser m = if c then x.parser m else y.parser m := by
  split <;> rfl

/-- The code of a symbol, with its loop over blanks, comes to the lexeme. -/
theorem parser_symbol (c : Char) :
    (symbol c : Code σ α Unit).parser m = scan (Lexeme.symbol c) := by
  funext p
  rw [symbol, parser_bind, parser_cursor, cursor_bind_apply, parser_ite, scan, Lexeme.symbol]
  split <;> rfl

/-- The code of a name comes to the lexeme. -/
theorem parser_letter : (letter : Code σ α String).parser m = scan Lexeme.letter := by
  funext p
  rw [letter, parser_bind, parser_cursor, cursor_bind_apply, scan, Lexeme.letter]
  cases p.cursor.look.filter Char.isAlpha <;> rfl

/-- The code of a number comes to the lexeme: the run of digits is what the first loop answers. -/
theorem parser_digits : (digits : Code σ α String).parser m = scan Lexeme.digits := by
  funext p
  rw [digits, run, parser_bind, parser_call, bind_apply, Procedure.parser, run_apply, scan,
    Lexeme.digits, Cursor.takeWhile_eq]
  cases p.cursor.unread.takeWhile Char.isDigit <;> rfl

/-- The code of a line end comes to the lexeme. -/
theorem parser_lineEnd : (lineEnd : Code σ α Bool).parser m = scan Lexeme.lineEnd := by
  funext p
  rw [lineEnd, parser_bind, parser_cursor, cursor_bind_apply, scan, Lexeme.lineEnd]
  split <;> simp only [*]
  · rw [parser_bind]
    -- a carriage return, which a line feed may follow
    show (Code.parser m (if p.cursor.advance.isAt '\n' then _ else _)) _ = _
    rw [parser_ite]
    split <;> rfl
  · rfl
  · rfl

/-- One round of the loop over characters, and the loop again, is the loop. -/
theorem parser_run (f : Char → Bool) : (body m (.run f)).parser m = Grammar.run f := by
  funext p
  rw [run_apply, body, parser_bind, parser_cursor, cursor_bind_apply]
  cases hlook : p.cursor.look with
  | none =>
    -- at the end of the text there is no run
    have hunread : p.cursor.unread = [] := by rw [Cursor.unread, hlook]
    rw [hunread]
    rfl
  | some c =>
    rw [Cursor.unread_eq_cons hlook, Option.filter_some]
    by_cases hc : f c = true
    · rw [if_pos hc, List.takeWhile_cons_of_pos hc]
      -- the loop that is called again comes to the rest of the run
      show (Grammar.run f >>= fun cs => pure (c :: cs)) { p with cursor := p.cursor.advance } = _
      rw [bind_apply, run_apply]
      rfl
    · rw [if_neg hc, List.takeWhile_cons_of_neg hc]
      rfl

/-- A variable or a call, by its lexemes and its steps. -/
theorem parser_reference : (reference m).parser m = Grammar.reference m := by
  simp only [reference, parser_bind, parser_letter, parser_symbol, parser_cursor, parser_ite,
    parser_act]
  rfl

theorem parser_output : (output m).parser m = Grammar.output m := by
  simp only [output, parser_bind, parser_letter, parser_symbol, parser_act]
  rfl

theorem parser_input : (input m).parser m = Grammar.input m := by
  simp only [input, parser_bind, parser_letter, parser_digits, parser_symbol, parser_act]
  rfl

/-- The code of a loop is one round of it, with the productions for the operand and for the rounds
behind. -/
theorem parser_loop (level : Operator → Bool) (operand : Procedure α α)
    (again : α → Procedure α α) (lhs : α) :
    (loop m level operand again lhs).parser m = (do
      match (← Grammar.cursor).operator?.filter level with
      | none => pure lhs
      | some op =>
        let held ← Grammar.act m (m.hold lhs)
        scan (Lexeme.symbol op.toChar)
        let rhs ← operand.parser m
        let value ← Grammar.act m (m.combine op held rhs)
        (again value).parser m) := by
  funext p
  rw [loop, parser_bind, parser_cursor, cursor_bind_apply, cursor_bind_apply]
  cases p.cursor.operator?.filter level with
  | none => rfl
  | some op => simp only [parser_bind, parser_symbol, parser_act, parser_call]

/-- What a procedure does comes to what the production does. -/
theorem parser_body (P : Procedure α β) : (body m P).parser m = P.parser m := by
  cases P with
  | run f => exact parser_run f
  | factor =>
    show _ = Grammar.factor m
    -- the production unfolds once by its equation, with the bound gone
    rw [factor_eq]
    simp only [body, parser_bind, parser_symbol, parser_digits, parser_reference, parser_cursor,
      parser_ite, parser_act, parser_pure, parser_call]
    rfl
  | termAfter lhs => exact (parser_loop _ _ _ _).trans (termAfter_eq m lhs).symm
  | term => exact (term_eq m).symm
  | expressionAfter lhs => exact (parser_loop _ _ _ _).trans (expressionAfter_eq m lhs).symm
  | expression =>
    show _ = Grammar.expression m
    rw [expression_eq]
    simp only [body, parser_bind, parser_cursor, parser_ite, parser_act, parser_call]
    rfl
  | assignment =>
    show _ = Grammar.assignment m
    rw [assignment_eq]
    simp only [body, parser_bind, parser_letter, parser_symbol, parser_act, parser_call]
    rfl
  | statement =>
    show _ = Grammar.statement m
    rw [statement_eq]
    simp only [body, parser_bind, parser_cursor, parser_ite, parser_output, parser_input,
      parser_call]
    rfl
  | assignmentLine =>
    simp only [body, parser_bind, parser_lineEnd, parser_ite, parser_call]
    rfl
  | program =>
    show _ = Grammar.program m
    rw [program_eq]
    simp only [body, parser_bind, parser_lineEnd, parser_cursor, parser_ite, parser_call]
    rfl

end Code

/-! ## Every call has one run -/

/-- The code, run from the place, ends, after at most `k` rounds of a program. -/
def Ends (m : Clocked σ α) (k : Nat) (x : Code σ α β) (p : Progress σ) : Prop :=
  ∃ j ≤ k, x.Runs m p j (x.parser m p)

/-- The code ends wherever at most `n` characters are left. -/
def EndsUpTo (m : Clocked σ α) (n k : Nat) (x : Code σ α β) : Prop :=
  ∀ p : Progress σ, p.left ≤ n → Ends m k x p

/-- An advance leaves no more than there was. -/
theorem consumes_advance : Consumes 0 (advance : Parser σ Unit) := by
  refine consumes_scan fun c b c' h => ?_
  cases h
  rw [Cursor.unread_advance, List.length_tail]
  omega

theorem consumes_run (f : Char → Bool) : Consumes 0 (run f : Parser σ (List Char)) := by
  refine consumes_scan fun c b c' h => ?_
  cases h
  rw [Cursor.unread_takeWhile]
  exact (List.dropWhile_sublist f).length_le

section

variable {m : Clocked σ α} {n k : Nat}

/-- Behind something basic that succeeds the code ends where the rest does. -/
theorem Ends.basic_bind {x : Basic σ β} {f : β → Code σ α γ} {p q : Progress σ} {b : β}
    (hx : x.parser m p = .ok b q) (hf : Ends m k (f b) q) : Ends m k (.basic x >>= f) p := by
  obtain ⟨j, hj, hruns⟩ := hf
  have hbasic : (.basic x : Code σ α β).Runs m p 0 (.ok b q) := hx ▸ .basic x p
  have hparser : (.basic x >>= f).parser m p = (f b).parser m q := by
    show (x.parser m >>= fun b => (f b).parser m) p = _
    rw [bind_apply, hx]
  refine ⟨0 + j, by omega, ?_⟩
  rw [hparser]
  exact .bind_ok hbasic hruns

namespace EndsUpTo

/-- A bound on the rounds may be exceeded by another. -/
theorem of_le {x : Code σ α β} {l : Nat} (h : EndsUpTo m n k x) (hl : k ≤ l) :
    EndsUpTo m n l x := by
  intro p hp
  obtain ⟨j, hj, hruns⟩ := h p hp
  exact ⟨j, Nat.le_trans hj hl, hruns⟩

theorem basic (x : Basic σ β) : EndsUpTo m n 0 (.basic x : Code σ α β) :=
  fun p _ => ⟨0, Nat.le_refl 0, .basic x p⟩

/-- A call ends where its body ends, with one round more if it is a program. -/
theorem call {P : Procedure α β} (h : EndsUpTo m n k (Code.body m P)) :
    EndsUpTo m n (P.round + k) (.call P) := by
  intro p hp
  obtain ⟨j, hj, hruns⟩ := h p hp
  rw [Code.parser_body] at hruns
  exact ⟨P.round + j, by omega, .call P hruns⟩

/-- What the first of two pieces of code consumes is not left for the second one. -/
theorem bind {d i : Nat} {x : Code σ α β} {f : β → Code σ α γ} (hx : EndsUpTo m n k x)
    (hd : Consumes d (x.parser m)) (hf : d ≤ n → ∀ b, EndsUpTo m (n - d) i (f b)) :
    EndsUpTo m n (k + i) (x >>= f) := by
  intro p hp
  obtain ⟨j, hj, hruns⟩ := hx p hp
  rw [Ends, Code.parser_bind, bind_apply]
  cases hxp : x.parser m p with
  | error fault q =>
    rw [hxp] at hruns
    exact ⟨j, by omega, .bind_error hruns⟩
  | ok b q =>
    rw [hxp] at hruns
    -- what is consumed here is off the bound of the code behind
    have hq := hd hxp
    obtain ⟨j', hj', hruns'⟩ := hf (by omega) b q (by omega)
    exact ⟨j + j', by omega, .bind_ok hruns hruns'⟩

/-- To look at the cursor costs nothing, and the code behind may depend on it. -/
theorem cursor_bind {f : Cursor → Code σ α β} (h : ∀ c, EndsUpTo m n k (f c)) :
    EndsUpTo m n k (Code.cursor >>= f) :=
  fun p hp => Ends.basic_bind rfl (h p.cursor p hp)

theorem act_bind {action : Action σ β} {f : β → Code σ α γ} (h : ∀ b, EndsUpTo m n 0 (f b)) :
    EndsUpTo m n 0 (Code.act action >>= f) :=
  (basic (.act action)).bind (i := 0) (consumes_act m action) fun _ => h

/-! ### Lexemes -/

/-- The loop of a lexeme goes on where an advance has consumed something. -/
theorem run (f : Char → Bool) : EndsUpTo m n 0 (Code.run f) := by
  induction n using Nat.strongRecOn with
  | ind n ih =>
    -- one round of the loop, and the loop again on fewer characters
    refine call (P := .run f) (k := 0) fun p hp => Ends.basic_bind rfl ?_
    cases hfilter : p.cursor.look.filter f with
    | none => exact basic (.pure []) p hp
    | some c =>
      have hlook : p.cursor.look = some c := (Option.filter_eq_some_iff.1 hfilter).1
      have hlt : p.cursor.advance.unread.length < p.left := Cursor.length_unread_advance_lt hlook
      refine Ends.basic_bind (x := .advance) rfl ?_
      -- the advance has gone over a character
      have hloop := ih _ (Nat.lt_of_lt_of_le hlt hp)
      refine hloop.bind (i := 0) (consumes_run f) (fun _ cs => basic (.pure (c :: cs))) _ ?_
      exact Nat.le_refl _

/-- A symbol ends, by the loop over the blanks behind it. -/
theorem symbol (c : Char) : EndsUpTo m n 0 (Code.symbol c) := by
  refine cursor_bind fun here => ?_
  split
  · -- the character, and the blanks behind it
    exact (basic .advance).bind consumes_advance fun _ _ =>
      (run isBlank).bind (i := 0) (consumes_run _) fun _ _ => basic _
  · exact basic _

/-- A name ends, by the loop over the blanks behind it. -/
theorem letter : EndsUpTo m n 0 (Code.letter : Code σ α String) := by
  refine cursor_bind fun here => ?_
  split
  · refine (basic .advance).bind (i := 0) consumes_advance fun _ _ => ?_
    exact (run isBlank).bind (i := 0) (consumes_run _) fun _ _ => basic _
  · exact basic _

/-- A number ends, by the loop over its digits and by that over the blanks. -/
theorem digits : EndsUpTo m n 0 (Code.digits : Code σ α String) := by
  refine (run Char.isDigit).bind (i := 0) (consumes_run _) fun _ ds => ?_
  split
  · exact basic _
  · exact (run isBlank).bind (i := 0) (consumes_run _) fun _ _ => basic _

/-- A line end ends, whichever characters it has. -/
theorem lineEnd : EndsUpTo m n 0 (Code.lineEnd : Code σ α Bool) := by
  -- each kind of line end comes to the blanks behind it
  have hrest {l : Nat} : EndsUpTo m l 0 (do let _ ← Code.run isBlank; pure true) :=
    (run isBlank).bind (i := 0) (consumes_run _) fun _ _ => basic _
  refine cursor_bind fun here => ?_
  split
  · refine (basic .advance).bind (i := 0) consumes_advance fun _ _ => cursor_bind fun behind => ?_
    split
    · exact (basic .advance).bind consumes_advance fun _ _ => hrest
    · exact hrest
  · exact (basic .advance).bind consumes_advance fun _ _ => hrest
  · exact basic _

/-- Behind a symbol there is a character less. -/
theorem symbol_bind {c : Char} {f : Unit → Code σ α γ} (h : 1 ≤ n → EndsUpTo m (n - 1) 0 (f ())) :
    EndsUpTo m n 0 (Code.symbol c >>= f) :=
  (symbol c).bind (i := 0) (Code.parser_symbol c ▸ consumes_symbol c) fun hn _ => h hn

/-- Behind a name there is a character less. -/
theorem letter_bind {f : String → Code σ α γ} (h : 1 ≤ n → ∀ name, EndsUpTo m (n - 1) 0 (f name)) :
    EndsUpTo m n 0 (Code.letter >>= f) :=
  letter.bind (i := 0) (Code.parser_letter ▸ consumes_letter) h

/-- Behind a number there is at least a character less. -/
theorem digits_bind {f : String → Code σ α γ}
    (h : 1 ≤ n → ∀ digits, EndsUpTo m (n - 1) 0 (f digits)) :
    EndsUpTo m n 0 (Code.digits >>= f) :=
  digits.bind (i := 0) (Code.parser_digits ▸ consumes_digits) h

/-- Behind a line end there may be as much as before, as it may be empty. -/
theorem lineEnd_bind {f : Bool → Code σ α γ} (h : ∀ seen, EndsUpTo m n k (f seen)) :
    EndsUpTo m n (0 + k) (Code.lineEnd >>= f) :=
  lineEnd.bind (d := 0) (Code.parser_lineEnd ▸ consumes_lineEnd) fun _ => h

/-! ### Productions that only read lexemes -/

/-- A variable or a call ends: it calls nothing but the loops of its lexemes. -/
theorem reference : EndsUpTo m n 0 (Code.reference m) := by
  refine letter_bind fun _ name => cursor_bind fun here => ?_
  split
  · exact symbol_bind fun _ => symbol_bind fun _ => basic _
  · exact basic _

theorem output : EndsUpTo m n 0 (Code.output m) :=
  symbol_bind fun _ => letter_bind fun _ _ => basic _

theorem input : EndsUpTo m n 0 (Code.input m) :=
  symbol_bind fun _ => letter_bind fun _ _ => digits_bind fun _ _ => act_bind fun _ => basic _

end EndsUpTo

/-! ### Procedures -/

/-- How many rounds of a program a call has, at most, where so many characters are left. -/
def Procedure.rounds {β : Type} : Procedure α β → Nat → Nat
  | .program, left => left / 2 + 1
  | _, _ => 0

/-- Every call ends where fewer than `n` characters are left. -/
def EndsBelow (m : Clocked σ α) (n : Nat) : Prop :=
  ∀ l < n, ∀ {β : Type} (P : Procedure α β), EndsUpTo m l (P.rounds l) (.call P)

open EndsUpTo

namespace EndsBelow

/-- An operation of a loop begins with a symbol, so the loop goes on with less to read. -/
theorem loop {operand : Procedure α α} {again : α → Procedure α α}
    (hoperand : ∀ l < n, EndsUpTo m l 0 (.call operand)) (hd : Consumes 0 (operand.parser m))
    (hagain : ∀ l < n, ∀ value, EndsUpTo m l 0 (.call (again value)))
    (level : Operator → Bool) (lhs : α) :
    EndsUpTo m n 0 (Code.loop m level operand again lhs) := by
  refine cursor_bind fun here => ?_
  split
  · exact basic _
  · refine act_bind fun held => symbol_bind fun hn => ?_
    -- the operator is a character, so operand and rounds have less
    have hlt : n - 1 < n := by omega
    exact (hoperand _ hlt).bind (i := 0) hd fun _ rhs => act_bind fun value => hagain _ hlt value

variable (h : EndsBelow m n)
include h

/-- A parenthesis comes before an expression. -/
theorem factor : EndsUpTo m n 0 (.call .factor) := by
  refine call (P := .factor) (k := 0) (cursor_bind fun here => ?_)
  split
  · refine symbol_bind fun hn => ?_
    -- the parenthesis is a character, so the expression inside has less
    have hinner : EndsUpTo m (n - 1) 0 (.call .expression) := h (n - 1) (by omega) .expression
    exact hinner.bind (d := 0) (i := 0) ((consumes_expression m).mono (Nat.zero_le 1)) fun _ _ =>
      symbol_bind fun _ => basic _
  · split
    · exact EndsUpTo.reference
    · exact digits_bind fun _ _ => basic _

/-- The rounds of a product end, as each of them begins with its operator. -/
theorem termAfter (lhs : α) : EndsUpTo m n 0 (.call (.termAfter lhs)) :=
  call (P := .termAfter lhs) (k := 0) <| loop (fun l hl => h l hl .factor)
    ((consumes_factor m).mono (Nat.zero_le 1)) (fun l hl value => h l hl (.termAfter value)) _ lhs

/-- A term ends, as its first factor and the rounds behind it do. -/
theorem term : EndsUpTo m n 0 (.call .term) :=
  call (P := .term) (k := 0) <| h.factor.bind (d := 0) (i := 0)
    ((consumes_factor m).mono (Nat.zero_le 1)) fun _ lhs => h.termAfter lhs

/-- The rounds of a sum end, as each of them begins with its operator. -/
theorem expressionAfter (lhs : α) : EndsUpTo m n 0 (.call (.expressionAfter lhs)) :=
  call (P := .expressionAfter lhs) (k := 0) <| loop (fun l hl => h l hl .term)
    ((consumes_term m).mono (Nat.zero_le 1)) (fun l hl value => h l hl (.expressionAfter value))
    _ lhs

/-- An expression ends, whether it begins with a sign or with a term. -/
theorem expression : EndsUpTo m n 0 (.call .expression) := by
  refine call (P := .expression) (k := 0) (cursor_bind fun here => ?_)
  split
  · exact act_bind fun lhs => h.expressionAfter lhs
  · exact h.term.bind (d := 0) (i := 0) ((consumes_term m).mono (Nat.zero_le 1)) fun _ lhs =>
      h.expressionAfter lhs

/-- An assignment ends: two characters stand before its expression. -/
theorem assignment : EndsUpTo m n 0 (.call .assignment) := by
  refine call (P := .assignment) (k := 0) ?_
  refine letter_bind fun hn name => symbol_bind fun hn' => ?_
  -- the name and the sign are characters, so the expression has less
  have hvalue : EndsUpTo m (n - 1 - 1) 0 (.call .expression) := h _ (by omega) .expression
  exact hvalue.bind (i := 0) (consumes_expression m) fun _ value => basic _

/-- A statement of any kind ends. -/
theorem statement : EndsUpTo m n 0 (.call .statement) := by
  refine call (P := .statement) (k := 0) (cursor_bind fun here => ?_)
  split
  · exact EndsUpTo.output
  · split
    · exact EndsUpTo.input
    · exact h.assignment

/-- An assignment on a line ends, whether the end of the line is there or not. -/
theorem assignmentLine : EndsUpTo m n 0 (.call .assignmentLine) := by
  refine call (P := .assignmentLine) (k := 0) ?_
  refine h.assignment.bind (i := 0) (consumes_assignment m) fun _ _ => ?_
  refine lineEnd_bind (k := 0) fun seen => ?_
  split <;> exact basic _

/-- A statement takes two characters, so the rounds behind it are fewer by one. -/
theorem program : EndsUpTo m n (n / 2 + 1) (.call .program) := by
  -- a statement, its line end and the rounds behind
  have hbody : EndsUpTo m n (0 + (0 + n / 2)) (Code.body m .program) := by
    refine h.statement.bind (consumes_statement m) fun hn _ => lineEnd_bind fun seen => ?_
    refine cursor_bind fun here => ?_
    -- a statement has succeeded, so there were two characters
    have hrounds : n / 2 = (n - 2) / 2 + 1 := by omega
    rw [hrounds]
    split
    · exact (basic _).of_le (Nat.zero_le _)
    · exact h (n - 2) (by omega) .program
  exact hbody.call.of_le (by simp only [Procedure.round]; omega)

end EndsBelow

/-- Every call ends, by induction on the characters that are left: inside it, calls of what it is
part of have less of them. -/
theorem endsUpTo_call (n : Nat) (P : Procedure α β) : EndsUpTo m n (P.rounds n) (.call P) := by
  induction n using Nat.strongRecOn generalizing β with
  | ind n ih =>
    have h : EndsBelow m n := fun l hl _ P => ih l hl P
    -- the calls inside a procedure are the induction hypothesis, those of smaller procedures are
    -- their own lemmas
    cases P with
    | run f => exact EndsUpTo.run f
    | factor => exact h.factor
    | termAfter lhs => exact h.termAfter lhs
    | term => exact h.term
    | expressionAfter lhs => exact h.expressionAfter lhs
    | expression => exact h.expression
    | assignment => exact h.assignment
    | statement => exact h.statement
    | assignmentLine => exact h.assignmentLine
    | program => exact h.program

end

/-- Every call ends with what the production comes to. -/
theorem exists_runs (m : Clocked σ α) (P : Procedure α β) (p : Progress σ) :
    ∃ n ≤ P.rounds p.left, (Code.call P).Runs m p n (P.parser m p) :=
  endsUpTo_call p.left P p (Nat.le_refl _)

/-- Nothing is left open by a place and a piece of code: there is one run. -/
theorem Code.Runs.unique {m : Clocked σ α} {x : Code σ α β} {p : Progress σ} {n n' : Nat}
    {r r' : EStateM.Result Fault (Progress σ) β} (h : x.Runs m p n r) (h' : x.Runs m p n' r') :
    n = n' ∧ r = r' := by
  -- the code says which rule made the run, and a success is no failure
  induction h generalizing n' with
  | basic x p => cases h'; exact ⟨rfl, rfl⟩
  | call P h ih =>
    cases h' with
    | call _ h' =>
      obtain ⟨rfl, rfl⟩ := ih h'
      exact ⟨rfl, rfl⟩
  | bind_ok hx hf ihx ihf =>
    cases h' with
    | bind_ok hx' hf' =>
      obtain ⟨rfl, hok⟩ := ihx hx'
      cases hok
      obtain ⟨rfl, rfl⟩ := ihf hf'
      exact ⟨rfl, rfl⟩
    | bind_error hx' =>
      cases (ihx hx').2
  | bind_error hx ih =>
    cases h' with
    | bind_ok hx' hf' => cases (ih hx').2
    | bind_error hx' =>
      obtain ⟨rfl, herror⟩ := ih hx'
      cases herror
      exact ⟨rfl, rfl⟩

end OnePass.Grammar
