import OnePass.Listing
import OnePass.Proofs.Words

/-!
# The machine that listings are for

What instructions do (`Machine.step`, `Machine.exec`), for words of any ring: integers, or numbers
that wrap around. An expression that is compiled means what it means in the machine's own arithmetic
(`Arith.ofMachine`), in which a left operand is popped and the right one is in `D0`. Its code leaves
the stack and the memory as they were (`Expr.Spelled.loads`), so statements follow one another like
in the reference (`Statements.Spelled.carriesOut`).
-/

namespace OnePass

/-! ## Instructions -/

/-- The state of the machine, with words of a type. Memory is known by the names of its cells. -/
structure Machine (R : Type) where
  d0 : R
  d1 : R
  /-- The cell whose address is in `A0`, if it is the address of one. -/
  a0 : Option String
  /-- The words on the stack, the newest first. -/
  stack : List R
  memory : String → R
  /-- The words that `WRITE` was called with, the oldest first. -/
  written : List R

namespace Machine

variable {R : Type} [CommRing R] (divide : R → R → Option R)

/-- Takes the newest word off the stack. -/
def pop (m : Machine R) : Option (R × Machine R) :=
  match m.stack with
  | [] => none
  | w :: stack => some (w, { m with stack })

/-- Carries out one instruction, if it can be. The destination of an operation is its left operand,
and `divide` is the division, which may fail. The one subroutine there is writes `D0`. -/
def step (m : Machine R) : Instruction → Option (Machine R)
  | .clear => some { m with d0 := 0 }
  | .constant digits => (Word.magnitude? digits.toList).map fun n : Nat => { m with d0 := n }
  | .load name => some { m with d0 := m.memory name }
  | .address name => some { m with a0 := some name }
  | .store => m.a0.map fun name => { m with memory := Function.update m.memory name m.d0 }
  | .push => some { m with stack := m.d0 :: m.stack }
  | .popDivisor => m.pop.map fun (w, m) => { m with d1 := w }
  | .add => m.pop.map fun (w, m) => { m with d0 := m.d0 + w }
  | .sub => m.pop.map fun (w, m) => { m with d0 := m.d0 - w }
  | .neg => some { m with d0 := -m.d0 }
  | .mul => m.pop.map fun (w, m) => { m with d0 := m.d0 * w }
  | .div => (divide m.d0 m.d1).map fun q => { m with d0 := q }
  | .branch name =>
    if name = "WRITE" then some { m with written := m.written ++ [m.d0] } else none

def exec : List Instruction → Machine R → Option (Machine R)
  | [], m => some m
  | instruction :: code, m => (m.step divide instruction).bind (exec code)

theorem exec_append (xs ys : List Instruction) (m : Machine R) :
    exec divide (xs ++ ys) m = (exec divide xs m).bind (exec divide ys) := by
  induction xs generalizing m with
  | nil => rfl
  | cons instruction xs ih =>
    rw [List.cons_append, exec, exec]
    cases m.step divide instruction with
    | none => rfl
    | some m' => exact ih m'

/-- The second piece starts from the state that the first has left. -/
theorem exec_append_of_some {xs : List Instruction} {m m' : Machine R}
    (h : exec divide xs m = some m') (ys : List Instruction) :
    exec divide (xs ++ ys) m = exec divide ys m' := by
  rw [exec_append, h]
  rfl

/-- Code that cannot be carried out cannot with more behind it. -/
theorem exec_append_of_none {xs : List Instruction} {m : Machine R}
    (h : exec divide xs m = none) (ys : List Instruction) : exec divide (xs ++ ys) m = none := by
  rw [exec_append, h]
  rfl

end Machine

/-! ## The code of trees -/

/-- The code of an expression: the instructions of its constructs in post-order. -/
def Expr.code : Expr → List Instruction
  | .zero => [.clear]
  | .number digits => [.constant digits]
  | .var name => [.load name]
  | .call name => [.branch name]
  | .binary op lhs rhs => lhs.code ++ (.push :: (rhs.code ++ Listing.code (.combine op () ())))

def Stmt.code : Stmt → List Instruction
  | .print name => [.load name, .branch "WRITE"]
  | .input name digits => [.constant digits, .address name, .store]
  | .assign name e => e.code ++ [.address name, .store]

variable {R : Type} [CommRing R] (divide : R → R → Option R)

/-! ## What code means -/

/-- The arithmetic of the machine. In every operation the right operand is the destination; only a
difference is negated afterwards. -/
def Arith.ofMachine : Arith R where
  zero := 0
  literal n := .ok n
  apply op a b :=
    match op with
    | .add => .ok (b + a)
    | .sub => .ok (-(b - a))
    | .mul => .ok (b * a)
    | .div =>
      match divide b a with
      | some q => .ok q
      | none => .error .divisionByZero

namespace Machine

/-- The code loads the value into `D0` and changes nothing else but `D1`. If there is no value, it
cannot be carried out. -/
def Loads (code : List Instruction) (m : Machine R) : Except Cause R → Prop
  | .ok v => ∃ d1, exec divide code m = some { m with d0 := v, d1 }
  | .error _ => exec divide code m = none

/-- The instructions of an operator: its left operand is on the stack and its right one in `D0`. -/
theorem loads_combine (op : Operator) (a b : R) (m : Machine R) :
    match (Arith.ofMachine divide).apply op a b with
    | .ok v => ∃ d1, exec divide (Listing.code (.combine op () ()))
        { m with d0 := b, stack := a :: m.stack } = some { m with d0 := v, d1 }
    | .error _ => exec divide (Listing.code (.combine op () ()))
        { m with d0 := b, stack := a :: m.stack } = none := by
  cases op with
  | add => exact ⟨m.d1, rfl⟩
  | sub => exact ⟨m.d1, rfl⟩
  | mul => exact ⟨m.d1, rfl⟩
  | div =>
    cases hdivide : divide b a with
    | none => simp [Arith.ofMachine, hdivide, Listing.code, exec, step, pop]
    | some q => simp [Arith.ofMachine, hdivide, Listing.code, exec, step, pop]

/-- An operator between two operands. The right one is computed above the left one on the stack. -/
theorem loads_binary (op : Operator) {l r : Expr} {m : Machine R}
    (hl : Loads divide l.code m (l.value (.ofMachine divide) m.memory))
    (hr : ∀ m' : Machine R, m'.memory = m.memory →
      Loads divide r.code m' (r.value (.ofMachine divide) m.memory)) :
    Loads divide (Expr.binary op l r).code m
      ((Expr.binary op l r).value (.ofMachine divide) m.memory) := by
  rw [Expr.code, Expr.value]
  cases hleft : l.value (.ofMachine divide) m.memory with
  | error cause =>
    rw [hleft] at hl
    exact exec_append_of_none divide hl _
  | ok a =>
    rw [hleft] at hl
    obtain ⟨d1, hexec⟩ := hl
    have hpushed := exec_append_of_some divide hexec
      (.push :: (r.code ++ Listing.code (.combine op () ())))
    change _ = exec divide (r.code ++ Listing.code (.combine op () ()))
      { m with d0 := a, d1, stack := a :: m.stack } at hpushed
    -- the right operand finds the memory as it was, and the left one below it on the stack
    have hright := hr { m with d0 := a, d1, stack := a :: m.stack } rfl
    cases hvalue : r.value (.ofMachine divide) m.memory with
    | error cause =>
      rw [hvalue] at hright
      exact hpushed.trans (exec_append_of_none divide hright _)
    | ok b =>
      rw [hvalue] at hright
      obtain ⟨d1', hexec'⟩ := hright
      rw [exec_append_of_some divide hexec'] at hpushed
      -- the operation has the right operand in `D0`, and pops the left one
      have hcombine := loads_combine divide op a b { m with d1 := d1' }
      show Loads divide _ m ((Arith.ofMachine divide).apply op a b)
      cases hresult : (Arith.ofMachine divide).apply op a b with
      | error cause =>
        rw [hresult] at hcombine
        exact hpushed.trans hcombine
      | ok v =>
        rw [hresult] at hcombine
        obtain ⟨d1'', hexec''⟩ := hcombine
        exact ⟨d1'', hpushed.trans hexec''⟩

end Machine

/-- No variable has the name of the output routine. -/
theorem nameOf_ne_write (c : Char) : nameOf c ≠ "WRITE" := by
  intro h
  -- a name has one letter
  have hlength : (nameOf c).length = 5 := by rw [h]; decide
  exact absurd (String.length_singleton.symm.trans hlength) (by decide)

/-- The code of an expression loads its value. -/
theorem Expr.Spelled.loads {calls : Bool} {level : Level} {e : Expr} {s : List Char}
    (h : Expr.Spelled calls level e s) (m : Machine R) :
    Machine.Loads divide e.code m (e.value (.ofMachine divide) m.memory) := by
  induction h generalizing m with
  | @number ds w hds hw =>
    refine ⟨m.d1, ?_⟩
    rw [Expr.code, Machine.exec, Machine.step, decimal, String.toList_ofList,
      Word.magnitude?_of_digits hds]
    rfl
  | var hc hw => exact ⟨m.d1, rfl⟩
  | @call c u v w hcalls hc hu hv hw =>
    -- the machine has no subroutine of that name, and the reference no value for it
    show Machine.exec divide [.branch (nameOf c)] m = none
    rw [Machine.exec, Machine.step, if_neg (nameOf_ne_write c)]
    rfl
  | parens he hu hw ih => exact ih m
  | term he ih => exact ih m
  | expression he ih => exact ih m
  | @binary level op l r s t w hop hl hr hw ihl ihr =>
    refine Machine.loads_binary divide op (ihl m) fun m' hm' => ?_
    rw [← hm']
    exact ihr m'
  -- a sign has the zero that was loaded as its left operand
  | @signed op r t w hop hr hw ih =>
    refine Machine.loads_binary divide op (l := .zero) ⟨m.d1, rfl⟩ fun m' hm' => ?_
    rw [← hm']
    exact ih m'

/-! ## Statements -/

namespace Machine

/-- The code lets the machine write the words and end with the variables in its memory, the stack
being as before. If there are no variables at the end, the code cannot be carried out. -/
def CarriesOut (code : List Instruction) (m : Machine R) (printed : List R) :
    Except Cause (String → R) → Prop
  | .ok vars => ∃ m', exec divide code m = some m' ∧ m'.memory = vars ∧ m'.stack = m.stack ∧
      m'.written = m.written ++ printed
  | .error _ => exec divide code m = none

/-- The two instructions of a store put the value into the memory. -/
theorem Loads.assigns {code : List Instruction} {m : Machine R} {r : Except Cause R}
    (h : Loads divide code m r) (name : String) :
    CarriesOut divide (code ++ [.address name, .store]) m []
      (r >>= fun v => .ok (Function.update m.memory name v)) := by
  cases r with
  | ok v =>
    obtain ⟨d1, hexec⟩ := h
    refine ⟨_, exec_append_of_some divide hexec _, rfl, rfl, ?_⟩
    rw [List.append_nil]
  | error cause => exact exec_append_of_none divide h _

end Machine

/-- The code of a statement does what the statement means, and leaves the stack as it was. -/
theorem Stmt.Spelled.carriesOut {calls : Bool} {statement : Stmt} {s : List Char}
    (h : Stmt.Spelled calls statement s) (m : Machine R) :
    Machine.CarriesOut divide statement.code m (statement.printed m.memory)
      (statement.after (.ofMachine divide) m.memory) := by
  cases h with
  | print hc hu hw => exact ⟨_, rfl, rfl, rfl, rfl⟩
  | @input c ds u v w hc hds hu hv hw =>
    have hnumber : Expr.Spelled calls .factor (.number (String.ofList ds)) (ds ++ w) :=
      .number hds hw
    exact (hnumber.loads divide m).assigns divide (nameOf c)
  | @assign c e s u v hc hu hv he => exact (he.loads divide m).assigns divide (nameOf c)

/-- The code of a statement and the code behind it. -/
theorem Machine.CarriesOut.cons {s : Stmt} {ss : List Stmt} {m : Machine R}
    (hs : CarriesOut divide s.code m (s.printed m.memory) (s.after (.ofMachine divide) m.memory))
    (hss : ∀ m' : Machine R, CarriesOut divide (ss.flatMap Stmt.code) m'
      (outcome (.ofMachine divide) m'.memory ss).printed
      (outcome (.ofMachine divide) m'.memory ss).result) :
    CarriesOut divide ((s :: ss).flatMap Stmt.code) m
      (outcome (.ofMachine divide) m.memory (s :: ss)).printed
      (outcome (.ofMachine divide) m.memory (s :: ss)).result := by
  rw [List.flatMap_cons]
  cases hafter : s.after (.ofMachine divide) m.memory with
  | error cause =>
    rw [hafter] at hs
    rw [outcome_cons_error hafter]
    exact exec_append_of_none divide hs _
  | ok vars =>
    rw [hafter] at hs
    rw [outcome_cons_ok hafter]
    obtain ⟨m', hexec, rfl, hstack, hwritten⟩ := hs
    -- the code behind starts from the memory that the statement has left
    have happend := exec_append_of_some divide hexec (ss.flatMap Stmt.code)
    have hrest := hss m'
    cases hresult : (outcome (.ofMachine divide) m'.memory ss).result with
    | error cause =>
      rw [hresult] at hrest
      exact happend.trans hrest
    | ok vars' =>
      rw [hresult] at hrest
      obtain ⟨m'', hexec', hmemory, hstack', hwritten'⟩ := hrest
      refine ⟨m'', happend.trans hexec', hmemory, hstack'.trans hstack, ?_⟩
      rw [hwritten', hwritten, List.append_assoc]

/-- The code of statements does what they mean, one after another. -/
theorem Statements.Spelled.carriesOut {calls : Bool} {statements : List Stmt} {s : List Char}
    (h : Statements.Spelled calls statements s) (m : Machine R) :
    Machine.CarriesOut divide (statements.flatMap Stmt.code) m
      (outcome (.ofMachine divide) m.memory statements).printed
      (outcome (.ofMachine divide) m.memory statements).result := by
  induction h generalizing m with
  | last hs he =>
    refine Machine.CarriesOut.cons divide (hs.carriesOut divide m) fun m' => ?_
    exact ⟨m', rfl, rfl, rfl, (List.append_nil _).symm⟩
  | cons hs he hss ih => exact Machine.CarriesOut.cons divide (hs.carriesOut divide m) ih

end OnePass
