import OnePass.Grammar.Consumption

/-!
# The productions without their bounds

The bound that the productions recurse on is never felt: any two bounds that the text fits in give
the same parser (`agreeUpTo_factorWithin` and its companions). Hence each production satisfies the
equation that the grammar has for it, with the productions themselves on the right
(`factor_eq`, `termAfter_eq`, `term_eq`, `expressionAfter_eq`, `expression_eq`, `assignment_eq`,
`statement_eq`, `program_eq`).
-/

namespace OnePass.Grammar

variable {σ α β : Type}

/-! ## Agreement on short texts -/

/-- The two parsers do the same wherever at most `n` characters are left. -/
def AgreeUpTo (n : Nat) (x y : Parser σ α) : Prop :=
  ∀ ⦃p : Progress σ⦄, p.left ≤ n → x p = y p

/-- Parsers that agree on long texts agree on shorter ones. -/
theorem AgreeUpTo.mono {k n : Nat} {x y : Parser σ α} (h : AgreeUpTo n x y) (hk : k ≤ n) :
    AgreeUpTo k x y := fun _ hp => h (Nat.le_trans hp hk)

theorem AgreeUpTo.refl (n : Nat) (x : Parser σ α) : AgreeUpTo n x x := fun _ _ => rfl

/-- What the first of two steps consumes is no concern of the second one. -/
theorem AgreeUpTo.bind {n d : Nat} {x y : Parser σ α} {f g : α → Parser σ β}
    (hx : AgreeUpTo n x y) (hd : Consumes d x) (hf : ∀ a, AgreeUpTo (n - d) (f a) (g a)) :
    AgreeUpTo n (x >>= f) (y >>= g) := by
  intro p hp
  rw [bind_apply, bind_apply, ← hx hp]
  split
  · next a q hq =>
    have := hd hq
    exact hf a (by omega)
  · rfl

/-- The same first parser in front: it leaves less for the two behind it. -/
theorem AgreeUpTo.bind_left {n d : Nat} {x : Parser σ α} {f g : α → Parser σ β}
    (hd : Consumes d x) (hf : ∀ a, AgreeUpTo (n - d) (f a) (g a)) :
    AgreeUpTo n (x >>= f) (x >>= g) :=
  (AgreeUpTo.refl n x).bind hd hf

/-- What is done next may depend on the cursor, and need only agree where it stands. -/
theorem AgreeUpTo.cursor_bind {n : Nat} {f g : Cursor → Parser σ β}
    (h : ∀ p : Progress σ, p.left ≤ n → f p.cursor p = g p.cursor p) :
    AgreeUpTo n (cursor >>= f) (cursor >>= g) := fun p hp => h p hp

/-- At the end of the text there is nothing to look at. -/
theorem look_eq_none {p : Progress σ} (h : p.left = 0) : p.cursor.look = none := by
  rw [Cursor.look_eq_head?, List.length_eq_zero_iff.1 h, List.head?_nil]

/-! ## Expressions -/

/-- A loop over operators that is bounded by more than the text comes to the same with any such
bound. The induction is on the length of the text: each round consumes its operator. -/
theorem agreeUpTo_chainWithin (m : Clocked σ α) (level : Operator → Bool)
    {x y : Parser σ α} (hx : Consumes 0 x) {k n n' : Nat} (hxy : AgreeUpTo k x y)
    (hn : k ≤ n) (hn' : k ≤ n') (lhs : α) :
    AgreeUpTo k (chainWithin m level x n lhs) (chainWithin m level y n' lhs) := by
  induction k generalizing n n' lhs with
  | zero =>
    -- at the end of the text there is no operator, whatever the bound
    have hend (z : Parser σ α) (i : Nat) {p : Progress σ} (hp : p.left ≤ 0) :
        chainWithin m level z i lhs p = .ok lhs p := by
      have hlook := look_eq_none (Nat.le_zero.1 hp)
      cases i with
      | zero => rfl
      | succ i => simp [chainWithin, Cursor.operator?, hlook]
    intro p hp
    rw [hend x n hp, hend y n' hp]
  | succ k ih =>
    -- the bounds are not zero, so both loops look for an operator
    obtain ⟨n, rfl⟩ : ∃ i, n = i + 1 := ⟨n - 1, by omega⟩
    obtain ⟨n', rfl⟩ : ∃ i, n' = i + 1 := ⟨n' - 1, by omega⟩
    refine AgreeUpTo.cursor_bind fun p hp => ?_
    cases p.cursor.operator?.filter level with
    | none => rfl
    | some op =>
      refine AgreeUpTo.bind_left (consumes_act m _) (fun held => ?_) hp
      refine AgreeUpTo.bind_left (consumes_symbol _) fun _ => ?_
      refine (hxy.mono (by omega)).bind hx fun rhs => ?_
      refine AgreeUpTo.bind_left (consumes_act m _) fun value => ?_
      exact (ih (hxy.mono (by omega)) (by omega) (by omega) value).mono (by omega)

/-- A term is a factor and the loop behind it. -/
theorem agreeUpTo_termWithin (m : Clocked σ α) {x y : Parser σ α} (hx : Consumes 0 x)
    {k n n' : Nat} (hxy : AgreeUpTo k x y) (hn : k ≤ n) (hn' : k ≤ n') :
    AgreeUpTo k (termWithin m x n) (termWithin m y n') :=
  hxy.bind hx fun lhs => agreeUpTo_chainWithin m _ hx hxy hn hn' lhs

/-- An expression is a sign or a term, and the loop behind it. -/
theorem agreeUpTo_expressionWithin (m : Clocked σ α) {x y : Parser σ α} (hx : Consumes 0 x)
    {k n n' : Nat} (hxy : AgreeUpTo k x y) (hn : k ≤ n) (hn' : k ≤ n') :
    AgreeUpTo k (expressionWithin m x n) (expressionWithin m y n') := by
  have hterm := agreeUpTo_termWithin m hx hxy hn hn'
  have hchain (lhs : α) := agreeUpTo_chainWithin m Operator.isAdditive
    (consumes_termWithin m hx n) hterm hn hn' lhs
  refine AgreeUpTo.cursor_bind fun p hp => ?_
  split
  · exact AgreeUpTo.bind_left (consumes_act m _) hchain hp
  · exact hterm.bind (consumes_termWithin m hx n) hchain hp

/-- What the loops ask of their operands. -/
theorem consumes_zero_factorWithin (m : Clocked σ α) (n : Nat) :
    Consumes 0 (factorWithin m n) :=
  (consumes_factorWithin m n).mono (Nat.zero_le _)

/-- At the end of the text a factor is a missing number, whatever the bound. -/
theorem factorWithin_of_left_eq_zero (m : Clocked σ α) (n : Nat) {p : Progress σ}
    (hp : p.left = 0) : factorWithin m n p = missing "Integer" p := by
  have hlook := look_eq_none hp
  cases n with
  | zero => rfl
  | succ n =>
    have hdigits : p.cursor.takeWhile Char.isDigit = ([], p.cursor) := by
      rw [Cursor.takeWhile]
      split
      · rfl
      · simp_all
    rw [factorWithin, cursor_bind_apply]
    simp [Cursor.isAt, Cursor.isAtLetter, hlook, bind_apply, scan, missing, Lexeme.digits, hdigits]

/-- Two bounds that the text fits in are no different to a factor. An expression in parentheses has
a shorter text, since the parenthesis has been consumed. -/
theorem agreeUpTo_factorWithin (m : Clocked σ α) {k n n' : Nat} (hn : k ≤ n) (hn' : k ≤ n') :
    AgreeUpTo k (factorWithin m n) (factorWithin m n') := by
  induction k generalizing n n' with
  | zero =>
    intro p hp
    rw [factorWithin_of_left_eq_zero m n (Nat.le_zero.1 hp),
      factorWithin_of_left_eq_zero m n' (Nat.le_zero.1 hp)]
  | succ k ih =>
    obtain ⟨n, rfl⟩ : ∃ i, n = i + 1 := ⟨n - 1, by omega⟩
    obtain ⟨n', rfl⟩ : ∃ i, n' = i + 1 := ⟨n' - 1, by omega⟩
    -- behind the parenthesis both bounds are smaller by one, and so is the text
    have hinner : AgreeUpTo k (expressionWithin m (factorWithin m n) n)
        (expressionWithin m (factorWithin m n') n') :=
      agreeUpTo_expressionWithin m (consumes_zero_factorWithin m n)
        (ih (by omega) (by omega)) (by omega) (by omega)
    refine AgreeUpTo.cursor_bind fun p hp => ?_
    split
    · refine AgreeUpTo.bind_left (consumes_symbol _) (fun _ => ?_) hp
      exact hinner.bind (consumes_expressionWithin m (consumes_zero_factorWithin m n) n)
        fun _ => AgreeUpTo.refl _ _
    · rfl

/-! ## The bound is never felt

A production uses as its bound the number of characters left where it begins. Any greater bound does
as well. -/

section

variable (m : Clocked σ α) {k n i : Nat}

/-- A bound that the text fits in does for a factor, and so for all that is made of factors. -/
theorem agreeUpTo_factor (hn : k ≤ n) : AgreeUpTo k (factorWithin m n) (factor m) :=
  fun _ hp => agreeUpTo_factorWithin m (Nat.le_trans hp hn) (Nat.le_refl _) (Nat.le_refl _)

theorem agreeUpTo_termAfter (hn : k ≤ n) (hi : k ≤ i) (lhs : α) :
    AgreeUpTo k (chainWithin m Operator.isMultiplicative (factorWithin m n) i lhs)
      (termAfter m lhs) := fun _ hp =>
  agreeUpTo_chainWithin m _ (consumes_zero_factorWithin m n)
    (agreeUpTo_factorWithin m (Nat.le_trans hp hn) (Nat.le_refl _))
    (Nat.le_trans hp hi) (Nat.le_refl _) lhs (Nat.le_refl _)

theorem agreeUpTo_term (hn : k ≤ n) (hi : k ≤ i) :
    AgreeUpTo k (termWithin m (factorWithin m n) i) (term m) := fun _ hp =>
  agreeUpTo_termWithin m (consumes_zero_factorWithin m n)
    (agreeUpTo_factorWithin m (Nat.le_trans hp hn) (Nat.le_refl _))
    (Nat.le_trans hp hi) (Nat.le_refl _) (Nat.le_refl _)

theorem agreeUpTo_expressionAfter (hn : k ≤ n) (hi : k ≤ i) (lhs : α) :
    AgreeUpTo k (chainWithin m Operator.isAdditive (termWithin m (factorWithin m n) n) i lhs)
      (expressionAfter m lhs) := fun _ hp =>
  agreeUpTo_chainWithin m _ (consumes_termWithin m (consumes_zero_factorWithin m n) n)
    (agreeUpTo_termWithin m (consumes_zero_factorWithin m n)
      (agreeUpTo_factorWithin m (Nat.le_trans hp hn) (Nat.le_refl _))
      (Nat.le_trans hp hn) (Nat.le_refl _))
    (Nat.le_trans hp hi) (Nat.le_refl _) lhs (Nat.le_refl _)

theorem agreeUpTo_expression (hn : k ≤ n) (hi : k ≤ i) :
    AgreeUpTo k (expressionWithin m (factorWithin m n) i) (expression m) := fun _ hp =>
  agreeUpTo_expressionWithin m (consumes_zero_factorWithin m n)
    (agreeUpTo_factorWithin m (Nat.le_trans hp hn) (Nat.le_refl _))
    (Nat.le_trans hp hi) (Nat.le_refl _) (Nat.le_refl _)

theorem agreeUpTo_assignment (hn : k ≤ n) :
    AgreeUpTo k (assignmentWithin m n) (assignment m) := by
  intro p hp
  refine AgreeUpTo.bind_left (n := p.left) consumes_letter (fun name => ?_) (Nat.le_refl _)
  refine AgreeUpTo.bind_left (consumes_symbol _) fun _ => ?_
  refine AgreeUpTo.bind (fun q hq => ?_)
    (consumes_expressionWithin m (consumes_zero_factorWithin m n) n) fun _ => AgreeUpTo.refl _ _
  have hq' : q.left ≤ n := by omega
  rw [agreeUpTo_expression m hq' hq' (Nat.le_refl _)]
  have hp' : q.left ≤ p.left := by omega
  exact (agreeUpTo_expression m hp' hp' (Nat.le_refl _)).symm

theorem agreeUpTo_statement (hn : k ≤ n) :
    AgreeUpTo k (statementWithin m n) (statement m) := by
  intro p hp
  refine AgreeUpTo.cursor_bind (n := p.left) (fun q hq => ?_) (Nat.le_refl _)
  split
  · rfl
  · split
    · rfl
    · have hq' : q.left ≤ n := by omega
      rw [agreeUpTo_assignment m hq' (Nat.le_refl _)]
      exact (agreeUpTo_assignment m hq (Nat.le_refl _)).symm

end

/-- At the end of the text a statement is a missing name. -/
theorem statementWithin_of_left_eq_zero (m : Clocked σ α) (n : Nat) {p : Progress σ}
    (hp : p.left = 0) : statementWithin m n p = missing "Name" p := by
  have hlook := look_eq_none hp
  rw [statementWithin, cursor_bind_apply]
  simp [Cursor.isAt, hlook, assignmentWithin, bind_apply, scan, missing, Lexeme.letter]

/-- Bounds that the text fits in are no different to a program: each statement leaves less of it. -/
theorem agreeUpTo_programWithin (m : Clocked σ α) {k n n' : Nat} (hn : k ≤ n) (hn' : k ≤ n') :
    AgreeUpTo k (programWithin m n) (programWithin m n') := by
  induction k generalizing n n' with
  | zero =>
    -- without any text there is no first statement, whatever the bound
    have hend (i : Nat) {p : Progress σ} (hp : p.left = 0) :
        programWithin m i p = missing "Name" p := by
      cases i with
      | zero => rfl
      | succ i =>
        rw [programWithin, bind_apply, statementWithin_of_left_eq_zero m _ hp]
        rfl
    intro p hp
    rw [hend n (Nat.le_zero.1 hp), hend n' (Nat.le_zero.1 hp)]
  | succ k ih =>
    obtain ⟨n, rfl⟩ : ∃ i, n = i + 1 := ⟨n - 1, by omega⟩
    obtain ⟨n', rfl⟩ : ∃ i, n' = i + 1 := ⟨n' - 1, by omega⟩
    have hstatement : AgreeUpTo (k + 1) (statementWithin m (n + 1)) (statementWithin m (n' + 1)) :=
      fun p hp => by
        rw [agreeUpTo_statement m hn hp, agreeUpTo_statement m hn' hp]
    -- the statement has consumed a character, which pays for the bound of the rest
    refine hstatement.bind (consumes_statementWithin m _) fun _ => ?_
    refine AgreeUpTo.bind_left consumes_lineEnd fun _ => ?_
    refine AgreeUpTo.cursor_bind fun p hp => ?_
    split
    · rfl
    · exact ih (by omega) (by omega) hp

/-- A bound that the text fits in does for a program. -/
theorem agreeUpTo_program (m : Clocked σ α) {k n : Nat} (hn : k ≤ n) :
    AgreeUpTo k (programWithin m n) (program m) :=
  fun _ hp => agreeUpTo_programWithin m (Nat.le_trans hp hn) (Nat.le_refl _) (Nat.le_refl _)

/-! ## The equations -/

/-- Parsers that agree however much is left are the same. -/
theorem eq_of_agreeUpTo {x : Nat → Parser σ α} {u v : Parser σ α}
    (hu : ∀ n, AgreeUpTo n (x n) u) (hv : ∀ n, AgreeUpTo n (x n) v) : u = v :=
  funext fun p => (hu p.left (Nat.le_refl _)).symm.trans (hv p.left (Nat.le_refl _))

/-- A factor is an expression in parentheses, a variable or a call, or a number. -/
theorem factor_eq (m : Clocked σ α) :
    factor m = (do
      let here ← cursor
      if here.isAt '(' then
        scan (Lexeme.symbol '(')
        let value ← expression m
        scan (Lexeme.symbol ')')
        pure value
      else if here.isAtLetter then
        reference m
      else
        let digits ← scan Lexeme.digits
        act m (m.number digits)) := by
  refine eq_of_agreeUpTo (fun n => agreeUpTo_factor m (Nat.le_succ n)) fun n => ?_
  refine AgreeUpTo.cursor_bind fun p hp => ?_
  split
  · -- the parenthesis is consumed, so the smaller bound does inside
    refine AgreeUpTo.bind_left (consumes_symbol _) (fun _ => ?_) hp
    exact (agreeUpTo_expression m (Nat.sub_le _ _) (Nat.sub_le _ _)).bind
      (consumes_expressionWithin m (consumes_zero_factorWithin m n) n) fun _ =>
        AgreeUpTo.refl _ _
  · rfl

/-- Behind a factor come further ones, each with a multiplicative operator in front. -/
theorem termAfter_eq (m : Clocked σ α) (lhs : α) :
    termAfter m lhs = (do
      match (← cursor).operator?.filter Operator.isMultiplicative with
      | none => pure lhs
      | some op =>
        let held ← act m (m.hold lhs)
        scan (Lexeme.symbol op.toChar)
        let rhs ← factor m
        let value ← act m (m.combine op held rhs)
        termAfter m value) := by
  refine eq_of_agreeUpTo
    (fun n => agreeUpTo_termAfter m (Nat.le_refl n) (Nat.le_succ n) lhs) fun n => ?_
  refine AgreeUpTo.cursor_bind fun p hp => ?_
  cases p.cursor.operator?.filter Operator.isMultiplicative with
  | none => rfl
  | some op =>
    refine AgreeUpTo.bind_left (consumes_act m _) (fun held => ?_) hp
    -- the operator is consumed, so a smaller bound does for what comes behind
    refine AgreeUpTo.bind_left (consumes_symbol _) fun _ => ?_
    refine (agreeUpTo_factor m (by omega)).bind (consumes_zero_factorWithin m n) fun rhs => ?_
    refine AgreeUpTo.bind_left (consumes_act m _) fun value => ?_
    exact agreeUpTo_termAfter m (by omega) (by omega) value

/-- A term is a factor and what is multiplied with it. -/
theorem term_eq (m : Clocked σ α) :
    term m = (do
      let lhs ← factor m
      termAfter m lhs) := by
  refine eq_of_agreeUpTo
    (fun n => agreeUpTo_term m (Nat.le_refl n) (Nat.le_refl n)) fun n => ?_
  exact (agreeUpTo_factor m (Nat.le_refl n)).bind (consumes_zero_factorWithin m n) fun lhs =>
    agreeUpTo_termAfter m (by omega) (by omega) lhs

/-- Behind a term come further ones, each with an additive operator in front. -/
theorem expressionAfter_eq (m : Clocked σ α) (lhs : α) :
    expressionAfter m lhs = (do
      match (← cursor).operator?.filter Operator.isAdditive with
      | none => pure lhs
      | some op =>
        let held ← act m (m.hold lhs)
        scan (Lexeme.symbol op.toChar)
        let rhs ← term m
        let value ← act m (m.combine op held rhs)
        expressionAfter m value) := by
  refine eq_of_agreeUpTo
    (fun n => agreeUpTo_expressionAfter m (Nat.le_refl n) (Nat.le_succ n) lhs) fun n => ?_
  refine AgreeUpTo.cursor_bind fun p hp => ?_
  cases p.cursor.operator?.filter Operator.isAdditive with
  | none => rfl
  | some op =>
    refine AgreeUpTo.bind_left (consumes_act m _) (fun held => ?_) hp
    refine AgreeUpTo.bind_left (consumes_symbol _) fun _ => ?_
    refine (agreeUpTo_term m (by omega) (by omega)).bind
      (consumes_termWithin m (consumes_zero_factorWithin m n) n) fun rhs => ?_
    refine AgreeUpTo.bind_left (consumes_act m _) fun value => ?_
    exact agreeUpTo_expressionAfter m (by omega) (by omega) value

/-- An expression is a term, or zero before a sign, and what goes on behind it. -/
theorem expression_eq (m : Clocked σ α) :
    expression m = (do
      let lhs ← if (← cursor).isAtAdditive then act m m.zero else term m
      expressionAfter m lhs) := by
  refine eq_of_agreeUpTo
    (fun n => agreeUpTo_expression m (Nat.le_refl n) (Nat.le_refl n)) fun n => ?_
  refine AgreeUpTo.cursor_bind fun p hp => ?_
  split
  · exact AgreeUpTo.bind_left (consumes_act m _)
      (fun lhs => agreeUpTo_expressionAfter m (by omega) (by omega) lhs) hp
  · exact (agreeUpTo_term m (Nat.le_refl n) (Nat.le_refl n)).bind
      (consumes_termWithin m (consumes_zero_factorWithin m n) n)
      (fun lhs => agreeUpTo_expressionAfter m (by omega) (by omega) lhs) hp

/-- An assignment is a name, an equals sign and an expression. -/
theorem assignment_eq (m : Clocked σ α) :
    assignment m = (do
      let name ← scan Lexeme.letter
      scan (Lexeme.symbol '=')
      let value ← expression m
      act m (m.assign name value)) := by
  refine eq_of_agreeUpTo (fun n => agreeUpTo_assignment m (Nat.le_refl n)) fun n => ?_
  refine AgreeUpTo.bind_left consumes_letter fun name => ?_
  refine AgreeUpTo.bind_left (consumes_symbol _) fun _ => ?_
  exact (agreeUpTo_expression m (by omega) (by omega)).bind
    (consumes_expressionWithin m (consumes_zero_factorWithin m n) n) fun _ =>
      AgreeUpTo.refl _ _

/-- The character at hand tells which statement it is. -/
theorem statement_eq (m : Clocked σ α) :
    statement m = (do
      let here ← cursor
      if here.isAt '!' then output m
      else if here.isAt '?' then input m
      else assignment m) := by
  refine eq_of_agreeUpTo (fun n => agreeUpTo_statement m (Nat.le_refl n)) fun n => ?_
  refine AgreeUpTo.cursor_bind fun p hp => ?_
  split
  · rfl
  · split
    · rfl
    · exact agreeUpTo_assignment m (Nat.le_refl n) hp

/-- A program is a statement and, unless `;` is at hand behind it, another program. -/
theorem program_eq (m : Clocked σ α) :
    program m = (do
      statement m
      let _ ← scan Lexeme.lineEnd
      unless (← cursor).isAt ';' do
        program m) := by
  refine eq_of_agreeUpTo (fun n => agreeUpTo_program m (Nat.le_succ n)) fun n => ?_
  refine (agreeUpTo_statement m (Nat.le_succ n)).bind (consumes_statementWithin m _) fun _ => ?_
  refine AgreeUpTo.bind_left consumes_lineEnd fun _ => ?_
  refine AgreeUpTo.cursor_bind fun p hp => ?_
  split
  · rfl
  · exact agreeUpTo_program m (by omega) hp

end OnePass.Grammar
