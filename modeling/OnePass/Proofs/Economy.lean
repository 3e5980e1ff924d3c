import OnePass.Evaluation
import OnePass.Proofs.Accounts
import OnePass.Proofs.Rounds
import OnePass.Proofs.Scanning
import OnePass.Proofs.Termination

/-!
# What a program costs

Parsing ends, and it ends soon: a text is read in a bounded number of rounds, and a semantics is
handed at most two constructs for a character that is consumed (`parsing_ends`).

The constructs are counted against the characters: one is a cost of one, and a character that is
consumed pays two (`balance`). No construct comes before its characters by more than two, for a
sign that fails at once has handed over its zero and put it aside. That debt is paid by the `=` or
the `(` in front of the expression, so a statement never ends in debt (`costs_statementWithin`).
-/

namespace OnePass.Grammar

variable {σ α β γ : Type} {m : Clocked σ α}

/-! ## Costs -/

/-- What has been handed over so far, and two for each character that is still to be paid with. -/
def balance (p : Progress (Logged σ α)) : Int := p.state.calls.length + 2 * p.left

/-- The parser costs at most `d` more than it consumes when it succeeds, and `e` when it fails. -/
structure Costs (d e : Int) (x : Parser (Logged σ α) β) : Prop where
  ok : ∀ ⦃p b q⦄, x p = .ok b q → balance q ≤ balance p + d
  error : ∀ ⦃p fault q⦄, x p = .error fault q → balance q ≤ balance p + e

namespace Costs

/-- A cost may be stated higher than it is. -/
theorem mono {d e d' e' : Int} {x : Parser (Logged σ α) β} (h : Costs d e x) (hd : d ≤ d')
    (he : e ≤ e') : Costs d' e' x where
  ok p b q hq := by have := h.ok hq; omega
  error p fault q hq := by have := h.error hq; omega

/-- Costs of two parsers add up, and the second one may fail behind the first. -/
theorem bind {d e d' e' : Int} {x : Parser (Logged σ α) β} {f : β → Parser (Logged σ α) γ}
    (hx : Costs d e x) (hf : ∀ b, Costs d' e' (f b)) :
    Costs (d + d') (max e (d + e')) (x >>= f) where
  ok p c r h := by
    rw [bind_apply] at h
    split at h
    · -- the second part starts with what the first has left over
      next b q hq =>
      have := hx.ok hq
      have := (hf b).ok h
      omega
    · cases h
  error p fault r h := by
    rw [bind_apply] at h
    split at h
    · next b q hq =>
      have := hx.ok hq
      have := (hf b).error h
      omega
    · next fault' q hq =>
      cases h
      have := hx.error hq
      omega

/-- To look at the cursor costs nothing. -/
theorem cursor_bind {d e : Int} {f : Cursor → Parser (Logged σ α) β} (h : ∀ c, Costs d e (f c)) :
    Costs d e (cursor >>= f) where
  ok p _ _ hq := (h p.cursor).ok hq
  error p _ _ hq := (h p.cursor).error hq

end Costs

theorem costs_pure (b : β) : Costs 0 0 (pure b : Parser (Logged σ α) β) where
  ok := by rintro p _ _ ⟨⟩; omega
  error := by rintro p _ _ ⟨⟩

theorem costs_missing (d : Int) (what : String) :
    Costs d 0 (missing what : Parser (Logged σ α) β) where
  ok := by rintro p _ _ ⟨⟩
  error := by rintro p _ _ ⟨⟩; omega

/-- A lexeme pays for what it consumes. -/
theorem costs_scan {k : Nat} {lexeme : Scan β} (hreads : Lexeme.ReadsOn lexeme)
    (hconsumes : Consumes k (scan lexeme : Parser (Logged σ α) β)) :
    Costs (-2 * k) 0 (scan lexeme : Parser (Logged σ α) β) := by
  constructor
  · intro p b q h
    have hq : q = { p with cursor := _ } := (congrArg Action.ended h).symm.trans (ended_scan _ p)
    have hstate : q.state = p.state := by rw [hq]
    have hleft := hconsumes h
    rw [balance, balance, hstate]
    omega
  · intro p fault q h
    have hq : q = { p with cursor := _ } := (congrArg Action.ended h).symm.trans (ended_scan _ p)
    have hstate : q.state = p.state := by rw [hq]
    -- a lexeme that is not found has not put anything back
    obtain ⟨t, ht⟩ := hreads p.cursor
    have hcursor : q.cursor = Action.ended (lexeme p.cursor) := by rw [hq]
    have hleft : p.left = t.length + q.left := by
      rw [Progress.left, ht.unread, List.length_append, ← hcursor, Progress.left]
    rw [balance, balance, hstate]
    omega

/-- A symbol is one character, which pays two. -/
theorem costs_symbol (c : Char) :
    Costs (-2) 0 (scan (Lexeme.symbol c) : Parser (Logged σ α) Unit) :=
  costs_scan (k := 1) (Lexeme.readsOn_symbol c) (consumes_symbol c)

theorem costs_letter : Costs (-2) 0 (scan Lexeme.letter : Parser (Logged σ α) String) :=
  costs_scan (k := 1) Lexeme.readsOn_letter consumes_letter

theorem costs_digits : Costs (-2) 0 (scan Lexeme.digits : Parser (Logged σ α) String) :=
  costs_scan (k := 1) Lexeme.readsOn_digits consumes_digits

/-- A line end may be missing, so it is not relied on. -/
theorem costs_lineEnd : Costs 0 0 (scan Lexeme.lineEnd : Parser (Logged σ α) Bool) :=
  costs_scan (k := 0) Lexeme.readsOn_lineEnd consumes_lineEnd

/-- A construct is a cost of one, also where the semantics fails. -/
theorem costs_act (step : Step α) (f : β → Option α) (action : Action σ β) :
    Costs 1 1 (act m.logged (Logged.note step f action)) := by
  -- one call is noted and nothing is read, whatever comes of it
  have hended (p : Progress (Logged σ α)) :
      balance (Action.ended (act m.logged (Logged.note step f action) p)) = balance p + 1 := by
    have htick : m.logged.tick p.cursor p.state =
        ⟨m.tick p.cursor p.state.state, p.cursor, p.state.calls⟩ := rfl
    have hlength (call : Call α) :
        ((p.state.calls ++ [call]).length : Int) = p.state.calls.length + 1 := by simp
    rw [act, Logged.note, htick]
    simp only
    cases action (m.tick p.cursor p.state.state) <;>
    · show ((p.state.calls ++ [_]).length : Int) + 2 * p.left = balance p + 1
      rw [hlength, balance]
      omega
  constructor
  · intro p b q h
    have hq := hended p
    rw [h] at hq
    exact hq.le
  · intro p fault q h
    have hq := hended p
    rw [h] at hq
    exact hq.le

/-! ## Productions -/

/-- An operator pays for putting aside and for combining, and the operand behind it for itself. A
chain that fails may be one behind, the value put aside. -/
theorem costs_chainWithin (level : Operator → Bool) {operand : Parser (Logged σ α) α}
    (h : Costs (-1) 0 operand) (n : Nat) (lhs : α) :
    Costs 0 1 (chainWithin m.logged level operand n lhs) := by
  induction n generalizing lhs with
  | zero => exact (costs_pure lhs).mono (by omega) (by omega)
  | succ n ih =>
    refine Costs.cursor_bind fun here => ?_
    split
    · exact (costs_pure lhs).mono (by omega) (by omega)
    · -- one to put aside and one to combine, but two back for the operator and one for the operand
      exact ((costs_act _ _ _).bind fun held => (costs_symbol _).bind fun _ => h.bind fun rhs =>
        (costs_act _ _ _).bind fun value => ih value).mono (by omega) (by omega)

/-- The first factor pays for the operation that fails behind it. -/
theorem costs_termWithin {factor : Parser (Logged σ α) α} (h : Costs (-1) 0 factor) (n : Nat) :
    Costs (-1) 0 (termWithin m.logged factor n) :=
  (h.bind fun lhs => costs_chainWithin _ h n lhs).mono (by omega) (by omega)

/-- A leading sign is what nothing has been paid for yet. -/
theorem costs_expressionWithin {factor : Parser (Logged σ α) α} (h : Costs (-1) 0 factor)
    (n : Nat) : Costs 1 2 (expressionWithin m.logged factor n) := by
  have hterm := costs_termWithin (m := m) h n
  refine Costs.cursor_bind fun here => ?_
  split
  · -- the zero and the first value that is put aside come before the sign is consumed
    exact ((costs_act _ _ _).bind fun lhs => costs_chainWithin _ hterm n lhs).mono (by omega)
      (by omega)
  · exact (hterm.bind fun lhs => costs_chainWithin _ hterm n lhs).mono (by omega) (by omega)

/-- A variable pays two for one step. -/
theorem costs_reference : Costs (-1) 0 (reference m.logged) := by
  have hanswer (name : String) (here : Cursor) : Costs 1 1 (if m.logged.calls && here.isAt '(' then
      scan (Lexeme.symbol '(') >>= fun _ => scan (Lexeme.symbol ')') >>= fun _ =>
        act m.logged (m.logged.call name)
      else act m.logged (m.logged.load name)) := by
    split
    · exact ((costs_symbol _).bind fun _ => (costs_symbol _).bind fun _ =>
        costs_act _ _ _).mono (by omega) (by omega)
    · exact costs_act _ _ _
  exact (costs_letter.bind fun name => Costs.cursor_bind (hanswer name)).mono (by omega) (by omega)

/-- A factor leaves one in hand. Induction on the bound, for the parentheses. -/
theorem costs_factorWithin (n : Nat) : Costs (-1) 0 (factorWithin m.logged n) := by
  induction n with
  | zero => exact costs_missing _ _
  | succ n ih =>
    refine Costs.cursor_bind fun here => ?_
    split
    · -- the parenthesis pays for what an expression may owe
      exact ((costs_symbol _).bind fun _ => (costs_expressionWithin ih n).bind fun value =>
        (costs_symbol _).bind fun _ => costs_pure value).mono (by omega) (by omega)
    · split
      · exact costs_reference
      · exact (costs_digits.bind fun digits => costs_act _ _ _).mono (by omega) (by omega)

/-- The `=` pays for what an expression may be behind. -/
theorem costs_statementWithin (n : Nat) : Costs 0 0 (statementWithin m.logged n) := by
  refine Costs.cursor_bind fun here => ?_
  split
  · exact ((costs_symbol _).bind fun _ => costs_letter.bind fun name =>
      costs_act _ _ _).mono (by omega) (by omega)
  · split
    · exact ((costs_symbol _).bind fun _ => costs_letter.bind fun name =>
        costs_digits.bind fun digits => (costs_act _ _ _).bind fun value =>
          costs_act _ _ _).mono (by omega) (by omega)
    · -- and here the name and the `=` do
      exact (costs_letter.bind fun name => (costs_symbol _).bind fun _ =>
        (costs_expressionWithin (costs_factorWithin n) n).bind fun value =>
          costs_act _ _ _).mono (by omega) (by omega)

/-- No statement leaves a debt, so no program does. -/
theorem costs_programWithin (n : Nat) : Costs 0 0 (programWithin m.logged n) := by
  induction n with
  | zero => exact costs_missing _ _
  | succ n ih =>
    have hrest (here : Cursor) :
        Costs 0 0 (if here.isAt ';' then pure () else programWithin m.logged n) := by
      split
      · exact costs_pure ()
      · exact ih
    exact ((costs_statementWithin _).bind fun _ => costs_lineEnd.bind fun _ =>
      Costs.cursor_bind hrest).mono (by omega) (by omega)

/-! ## Calls against characters -/

/-- Of the calls of a program, also of one that fails, there are at most two for a character. -/
theorem length_calls_le (p : Progress (Logged σ α)) :
    let q := Action.ended (program m.logged p)
    q.state.calls.length ≤ p.state.calls.length + 2 * (q.cursor.offset - p.cursor.offset) := by
  intro q
  have hcosts : balance q ≤ balance p + 0 := by
    have hprogram := costs_programWithin (m := m) p.left
    show balance (Action.ended (programWithin m.logged p.left p)) ≤ _
    cases h : programWithin m.logged p.left p with
    | ok b r => exact hprogram.ok h
    | error fault r => exact hprogram.error h
  -- what is no longer left is what the cursor has moved
  obtain ⟨t, ht⟩ := (formed_programWithin (m := m.logged) p.left).reads p
  have hoffset : q.cursor.offset = p.cursor.offset + t.length := ht.offset_eq
  have hleft : p.left = t.length + q.left := by
    have hunread := congrArg List.length ht.unread
    rw [List.length_append] at hunread
    exact hunread
  rw [balance, balance] at hcosts
  omega

/-- Wherever the cursor stands and whatever the semantics does, every call of a procedure has one
run. It ends with what the production comes to, and a program has at most one round for two
characters that are left, and one more. What succeeds has consumed a character, an operation of a
loop and a statement two. At the end of the text, all but the loops fail where they stand, with the
state as it was, which holds of one that keeps a log as well. And at most two constructs are handed
over for a character that a program consumes. -/
theorem parsing_ends (m : Clocked σ α) (p : Progress σ) :
    (∀ {β : Type} (P : Procedure α β), ∃ n, ∀ k r,
      (Code.call P).Runs m p k r ↔ k = n ∧ r = P.parser m p) ∧
    (∃ n ≤ p.left / 2 + 1, (Code.call .program).Runs m p n (program m p)) ∧
    (∀ level value q, construct m level p = .ok value q → q.left + 1 ≤ p.left) ∧
    (∀ level lhs, constructAfter m level lhs p =
      match p.cursor.operator?.filter level.admits with
      | none => .ok lhs p
      | some op => (operation m level op lhs >>= constructAfter m level) p) ∧
    (∀ level op lhs value q, operation m level op lhs p = .ok value q → q.left + 2 ≤ p.left) ∧
    (∀ q, statement m p = .ok () q → q.left + 2 ≤ p.left) ∧
    (p.left = 0 →
      (∀ level, construct m level p = .error (p.cursor.missing "Integer") p) ∧
      (∀ x ∈ [assignment m, statement m, assignmentLine m, program m],
        x p = .error (p.cursor.missing "Name") p) ∧
      ∀ level lhs, constructAfter m level lhs p = .ok lhs p) ∧
    let q := Action.ended (program m.logged ⟨p.cursor, ⟨p.state, p.cursor, []⟩⟩)
    q.state.calls.length ≤ 2 * (q.cursor.offset - p.cursor.offset) := by
  refine ⟨fun P => ?_, exists_runs m .program p, fun level value q h => ?_, fun level lhs => ?_,
    fun level op lhs value q h => consumes_operation m level op lhs h,
    fun q h => consumes_statement m h, fun h => ⟨fun level => ?_, ?_, ?_⟩, ?_⟩
  · -- a run exists, and any two are the same
    obtain ⟨n, -, hruns⟩ := exists_runs m P p
    refine ⟨n, fun k r => ⟨fun h => ?_, ?_⟩⟩
    · exact ⟨(h.unique hruns).1, (h.unique hruns).2⟩
    · rintro ⟨rfl, rfl⟩
      exact hruns
  · cases level with
    | expression => exact consumes_expression m h
    | term => exact consumes_term m h
    | factor => exact consumes_factor m h
  · rw [constructAfter_eq_operation, cursor_bind_apply]
    cases p.cursor.operator?.filter level.admits <;> rfl
  · cases level with
    | expression => exact expression_of_end h
    | term => exact term_of_end h
    | factor => exact factor_of_end h
  · have hunread : p.cursor.unread = [] := List.length_eq_zero_iff.1 h
    simp only [List.mem_cons, List.not_mem_nil, or_false, forall_eq_or_imp, forall_eq]
    exact ⟨assignment_of_end h, statement_of_end h, assignmentLine_of_end h, program_of_end hunread⟩
  · exact constructAfter_of_end h
  · have hlength := length_calls_le (m := m) ⟨p.cursor, ⟨p.state, p.cursor, []⟩⟩
    simpa using hlength

/-- A sign at once behind the `=`, and the end of the text behind the statement. -/
theorem parsing_ends_sign :
    let m := Evaluation.semantics.timeless
    let start (src : String) : Progress (Writing Store) :=
      .start (.ofText src) { memory := {}, sink := {} }
    (∃ n ≤ 3, (Code.call .program).Runs m (start "a=-1") n (program m (start "a=-1"))) ∧
      (account m (.ofText "a=-1") { memory := {}, sink := {} }).calls.length = 5 ∧ 5 ≤ 2 * 4 ∧
      statement m (start "") = .error ((start "").cursor.missing "Name") (start "") := by
  intro m start
  have hruns := (parsing_ends m (start "a=-1")).2.1
  have hleft : (start "a=-1").left = 4 := by decide +kernel
  have hcalls : (account m (.ofText "a=-1") { memory := {}, sink := {} }).calls.length = 5 := by
    decide +kernel
  have hend := (parsing_ends m (start "")).2.2.2.2.2.2.1 (by decide +kernel)
  rw [hleft] at hruns
  exact ⟨hruns, hcalls, by decide, hend.2.1 _ (by simp)⟩

end OnePass.Grammar
