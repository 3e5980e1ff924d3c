import OnePass.Proofs.Compilation

/-!
# Running and compiling compared

A program that runs well is compiled, and over the integers the machine does with its code what the
program means with the operands of every division exchanged: `DIVS` divides the right operand by the
left one, which is popped as the divisor. So the machine agrees with the run exactly if that
exchange changes nothing (`agrees_iff_exchanged`), as it does in a program without division.
-/

namespace OnePass

/-! ## Division on the machine -/

/-- The division of integers. It drops the fraction, and there is none by zero. -/
def Machine.quotient (a b : Int) : Option Int := if b = 0 then none else some (a.tdiv b)

/-- Integers without a bound, with the operands of every division exchanged. -/
def Arith.exchanged : Arith Int where
  zero := 0
  literal n := .ok n
  apply op a b := if op = .div then op.exact b a else op.exact a b

/-- Over the integers the machine's arithmetic is exact, but for the order of the operands of a
division. The negation behind a subtraction puts its operands right. -/
theorem Arith.ofMachine_quotient : Arith.ofMachine Machine.quotient = Arith.exchanged := by
  refine Arith.ext rfl rfl ?_
  funext op a b
  cases op with
  | add =>
    show Except.ok (b + a) = Except.ok (a + b)
    rw [Int.add_comm]
  -- the right operand is in `D0`, and the sign of the difference is turned behind the subtraction
  | sub =>
    show Except.ok (-(b - a)) = Except.ok (a - b)
    rw [Int.neg_sub]
  | mul =>
    show Except.ok (b * a) = Except.ok (a * b)
    rw [Int.mul_comm]
  | div =>
    -- the left operand is the divisor here, so it is the one that must not be zero
    by_cases ha : a = 0
    · simp [ofMachine, exchanged, Machine.quotient, Operator.exact, ha]
    · simp [ofMachine, exchanged, Machine.quotient, Operator.exact, ha]

/-! ## Programs without division -/

/-- No operator of the expression is a division. -/
def Expr.DivisionFree : Expr → Prop
  | .binary op lhs rhs => op ≠ .div ∧ lhs.DivisionFree ∧ rhs.DivisionFree
  | .zero | .number _ | .var _ | .call _ => True

def Stmt.DivisionFree : Stmt → Prop
  | .assign _ e => e.DivisionFree
  | .print _ | .input _ _ => True

/-- An expression without `/` in its text has no division. -/
theorem Expr.Spelled.divisionFree {calls : Bool} {level : Level} {e : Expr} {s : List Char}
    (h : Expr.Spelled calls level e s) (hs : '/' ∉ s) : e.DivisionFree := by
  induction h with
  | number hds hw => trivial
  | var hc hw => trivial
  | call hcalls hc hu hv hw => trivial
  | parens he hu hw ih => exact ih fun hmem => hs (by simp [hmem])
  | term he ih => exact ih hs
  | expression he ih => exact ih hs
  | @binary level op l r s t w hop hl hr hw ihl ihr =>
    refine ⟨?_, ihl fun hmem => hs (by simp [hmem]), ihr fun hmem => hs (by simp [hmem])⟩
    -- the character of the operator stands in the text
    rintro rfl
    exact hs (by simp [Operator.toChar])
  | @signed op r t w hop hr hw ih =>
    refine ⟨?_, trivial, ih fun hmem => hs (by simp [hmem])⟩
    rintro rfl
    exact hs (by simp [Operator.toChar])

theorem Stmt.Spelled.divisionFree {calls : Bool} {statement : Stmt} {s : List Char}
    (h : Stmt.Spelled calls statement s) (hs : '/' ∉ s) : statement.DivisionFree := by
  cases h with
  | print hc hu hw => trivial
  | input hc hds hu hv hw => trivial
  | assign hc hu hv he => exact he.divisionFree fun hmem => hs (by simp [hmem])

/-- The same holds of all statements of a text. -/
theorem Statements.Spelled.divisionFree {calls : Bool} {statements : List Stmt} {s : List Char}
    (h : Statements.Spelled calls statements s) (hs : '/' ∉ s) :
    ∀ x ∈ statements, x.DivisionFree := by
  induction h with
  | last hst he =>
    rw [List.forall_mem_singleton]
    exact hst.divisionFree fun hmem => hs (by simp [hmem])
  | cons hst he hss ih =>
    rw [List.forall_mem_cons]
    exact ⟨hst.divisionFree fun hmem => hs (by simp [hmem]), ih fun hmem => hs (by simp [hmem])⟩

/-- A program whose text has no `/` has no division. -/
theorem Program.Spelled.divisionFree {calls : Bool} {program : List Stmt} {p : List Char}
    (h : Program.Spelled calls program p) (hp : '/' ∉ p) : ∀ x ∈ program, x.DivisionFree := by
  obtain ⟨w, t, hw, ht, rfl⟩ := h
  exact ht.divisionFree fun hmem => hp (by simp [hmem])

/-! ## The three arithmetics of integers -/

section

variable {vars : String → Int}

/-- A number that fits in a word is not changed by the check. -/
theorem eq_of_checked {k n : Int} (h : checked k = .ok n) : k = n := by
  unfold checked at h
  split at h
  · exact Except.ok.inj h
  · cases h

/-- If two computations in a row succeed, each of them does. -/
theorem of_bind_eq_ok {β γ : Type} {x : Except Cause β} {f : β → Except Cause γ} {c : γ}
    (h : x >>= f = .ok c) : ∃ b, x = .ok b ∧ f b = .ok c := by
  cases x with
  | error cause => cases h
  | ok b => exact ⟨b, rfl, h⟩

/-- What passes every check is exact. -/
theorem Expr.value_exact {e : Expr} {n : Int} (h : e.value .checked vars = .ok n) :
    e.value .exact vars = .ok n := by
  induction e generalizing n with
  | zero => exact h
  | number digits =>
    rw [← eq_of_checked h]
    rfl
  | var name => exact h
  | call name => cases h
  | binary op lhs rhs ihl ihr =>
    obtain ⟨a, ha, h⟩ := of_bind_eq_ok h
    obtain ⟨b, hb, h⟩ := of_bind_eq_ok h
    obtain ⟨k, hk, h⟩ := of_bind_eq_ok h
    rw [Expr.value, ihl ha, ← eq_of_checked h, ← hk]
    show (rhs.value .exact vars >>= fun b => op.exact a b) = op.exact a b
    rw [ihr hb]
    rfl

/-- A statement that succeeds on words does the same over the integers. -/
theorem Stmt.after_exact {s : Stmt} {vars' : String → Int}
    (h : s.after .checked vars = .ok vars') : s.after .exact vars = .ok vars' := by
  cases s with
  | print name => exact h
  | input name digits =>
    obtain ⟨n, hn, h⟩ := of_bind_eq_ok h
    rw [← h, ← eq_of_checked hn]
    rfl
  | assign name e =>
    obtain ⟨n, hn, h⟩ := of_bind_eq_ok h
    rw [Stmt.after, Expr.value_exact hn]
    exact h

/-- A program in which no check fails does the same without checks. -/
theorem outcome_exact {statements : List Stmt} {vars' : String → Int}
    (h : (outcome .checked vars statements).result = .ok vars') :
    outcome .exact vars statements = outcome .checked vars statements := by
  induction statements generalizing vars with
  | nil => rfl
  | cons s ss ih =>
    cases hafter : s.after .checked vars with
    | error cause =>
      rw [outcome_cons_error hafter] at h
      cases h
    | ok vars'' =>
      rw [outcome_cons_ok hafter] at h ⊢
      rw [outcome_cons_ok (Stmt.after_exact hafter), ih h]

/-- Without a division the operands may be exchanged. -/
theorem Expr.DivisionFree.value_exchanged {e : Expr} (h : e.DivisionFree) :
    e.value .exchanged vars = e.value .exact vars := by
  induction e with
  | zero => rfl
  | number digits => rfl
  | var name => rfl
  | call name => rfl
  | binary op lhs rhs ihl ihr =>
    obtain ⟨hop, hlhs, hrhs⟩ := h
    -- only a division tells the two arithmetics apart
    have happly : Arith.exchanged.apply op = Arith.exact.apply op := by
      funext a b
      exact if_neg hop
    rw [Expr.value, Expr.value, ihl hlhs, ihr hrhs, happly]

theorem Stmt.DivisionFree.after_exchanged {s : Stmt} (h : s.DivisionFree) :
    s.after .exchanged vars = s.after .exact vars := by
  cases s with
  | print name => rfl
  | input name digits => rfl
  | assign name e =>
    have he : e.DivisionFree := h
    rw [Stmt.after, Stmt.after, he.value_exchanged]

/-- Without divisions there are no operands to exchange. -/
theorem outcome_exchanged {statements : List Stmt} (h : ∀ s ∈ statements, s.DivisionFree) :
    outcome .exchanged vars statements = outcome .exact vars statements := by
  induction statements generalizing vars with
  | nil => rfl
  | cons s ss ih =>
    have hs := h s List.mem_cons_self
    have hss (vars : String → Int) : outcome .exchanged vars ss = outcome .exact vars ss :=
      ih fun x hx => h x (List.mem_cons_of_mem _ hx)
    rw [outcome, outcome, hs.after_exchanged]
    cases s.after .exact vars with
    | error cause => rfl
    | ok vars' => simp only [hss]

end

/-! ## Agreement -/

/-- The machine carries out the code, ends with the variables of the run and wrote the numbers that
the run printed. -/
def Machine.Agrees (m : Machine Int) (code : List Instruction) (src : String) : Prop :=
  ∃ m' store, exec quotient code m = some m' ∧ (run (.ofText src)).result = .ok store ∧
    store.Holds m'.memory ∧ (run (.ofText src)).sink.text = lines m'.written

/-- Agreement in terms of what the code is carried out to. -/
theorem Machine.agrees_iff {m : Machine Int} {code : List Instruction} {src : String}
    {store : Store} {vars : String → Int} {printed : List Int} {meaning : Outcome Int}
    (hrun : (run (.ofText src)).result = .ok store) (hstore : store.Holds vars)
    (htext : (run (.ofText src)).sink.text = lines printed)
    (hcode : m.CarriesOut quotient code meaning.printed meaning.result)
    (hwritten : m.written = []) :
    m.Agrees code src ↔ meaning = ⟨printed, .ok vars⟩ := by
  obtain ⟨printed', result⟩ := meaning
  cases result with
  | error cause =>
    -- the code cannot be carried out
    constructor
    · rintro ⟨m', store', hexec, -⟩
      have hnone : exec quotient code m = none := hcode
      rw [hnone] at hexec
      cases hexec
    · intro heq
      cases heq
  | ok vars' =>
    -- the machine ends in one state, which is compared with the run cell by cell
    obtain ⟨m', hexec, rfl, -, hwritten'⟩ := hcode
    rw [hwritten, List.nil_append] at hwritten'
    constructor
    · rintro ⟨m'', store', hexec', hrun', hholds, htext'⟩
      obtain rfl : m' = m'' := Option.some.inj (hexec.symm.trans hexec')
      obtain rfl : store = store' := Except.ok.inj (hrun.symm.trans hrun')
      have hvars : m'.memory = vars := by
        funext name
        rw [← hholds name, hstore name]
      have hlines : printed' = printed := by
        rw [hwritten'] at htext'
        exact lines_injective (htext'.symm.trans htext)
      rw [hvars, hlines]
    · intro heq
      cases heq
      refine ⟨m', store, hexec, hrun, hstore, ?_⟩
      rw [htext, hwritten']

/-- A program that runs well is compiled. From a memory of zeros the machine does with its code what
the program means with the operands of every division exchanged. So it agrees with the run exactly
if the exchange changes nothing, and always if the program has no `/`. -/
theorem agrees_iff_exchanged {src : String} {store : Store}
    (h : (run (.ofText src)).result = .ok store) :
    ∃ program p rest code, Program.Spelled false program p ∧ src.toList = p ++ ';' :: rest ∧
      (compile (.ofText src)).result = .ok code.length ∧
      assemble (compile (.ofText src)).sink.text = some code ∧
      ∀ m : Machine Int, m.memory = (fun _ => 0) → m.written = [] →
        m.CarriesOut Machine.quotient code (outcome .exchanged (fun _ => 0) program).printed
          (outcome .exchanged (fun _ => 0) program).result ∧
        (m.Agrees code src ↔
          outcome .exchanged (fun _ => 0) program = outcome .checked (fun _ => 0) program) ∧
        ('/' ∉ p → m.Agrees code src) := by
  obtain ⟨program, p, rest, vars, hp, hsrc, hresult, hstore, htext⟩ := outcome_of_run h
  obtain ⟨hcount, hlisting⟩ := compile_eq_ok (hp.of_false true) hsrc
  refine ⟨program, p, rest, _, hp, hsrc, hcount, hlisting, fun m hmemory hwritten => ?_⟩
  have hstatements := hp
  obtain ⟨w, t, hw, ht, -⟩ := hstatements
  have hcode := ht.carriesOut Machine.quotient m
  rw [Arith.ofMachine_quotient, hmemory] at hcode
  -- the run printed what the program means on words
  have hchecked : outcome .checked (fun _ => 0) program =
      ⟨(outcome .checked (fun _ => 0) program).printed, .ok vars⟩ := by
    rw [← hresult]
  have hagrees : m.Agrees (program.flatMap Stmt.code) src ↔
      outcome .exchanged (fun _ => 0) program = outcome .checked (fun _ => 0) program := by
    rw [Machine.agrees_iff h hstore htext hcode hwritten, ← hchecked]
  -- without a slash neither the exchange nor the check makes a difference
  refine ⟨hcode, hagrees, fun hslash => hagrees.2 ?_⟩
  rw [outcome_exchanged (hp.divisionFree hslash), outcome_exact hresult]

/-- A difference of a product and an output. -/
theorem agrees_iff_exchanged_difference :
    ∃ code, assemble (compile (.ofText "a=2-3*(b+4)\n!a;")).sink.text = some code ∧
      Machine.Agrees ⟨0, 0, none, [], fun _ => 0, []⟩ code "a=2-3*(b+4)\n!a;" := by
  have hrun : (run (.ofText "a=2-3*(b+4)\n!a;")).result = .ok ⟨[("A", -10)]⟩ := by decide +kernel
  obtain ⟨program, p, rest, code, hp, hsrc, -, hcode, hagrees⟩ := agrees_iff_exchanged hrun
  have hslash : '/' ∉ p := by
    intro hmem
    have htext : '/' ∈ "a=2-3*(b+4)\n!a;".toList := by
      rw [hsrc]
      exact List.mem_append_left _ hmem
    exact absurd htext (by decide)
  exact ⟨code, hcode, (hagrees _ rfl rfl).2.2 hslash⟩

/-- `7/2` is 3, and the machine divides 2 by 7. -/
theorem not_agrees_quotient :
    (run (.ofText "a=7/2;")).result = .ok ⟨[("A", 3)]⟩ ∧
    assemble (compile (.ofText "a=7/2;")).sink.text =
      some [.constant "7", .push, .constant "2", .popDivisor, .div, .address "A", .store] ∧
    ∀ m : Machine Int, m.memory = (fun _ => 0) → m.written = [] →
      ¬ m.Agrees [.constant "7", .push, .constant "2", .popDivisor, .div, .address "A", .store]
        "a=7/2;" := by
  have hrun : (run (.ofText "a=7/2;")).result = .ok ⟨[("A", 3)]⟩ := by decide +kernel
  refine ⟨hrun, by decide +kernel, ?_⟩
  rintro m - - ⟨m', store, hexec, hrun', hholds, -⟩
  obtain rfl : _ = store := Except.ok.inj (hrun.symm.trans hrun')
  obtain rfl : _ = m' := Option.some.inj hexec
  -- the machine leaves `2 / 7` in the variable where the run has 3
  have hzero : (3 : Int) = 0 := hholds "A"
  exact absurd hzero (by decide)

end OnePass
