import OnePass.Proofs.Agreement

/-!
# Words that wrap around

A machine has words of a fixed width, and its sums, differences, products and negations wrap around.
That is the arithmetic of a ring which the integers are mapped to, so code without division computes
the exact values in that ring (`outcome_cast`), whether they fit in a word or not. Where a run
succeeds they do fit, and the words read as signed numbers are those of the run (`compile_wraps`).

The stack that the machine starts with may hold anything. Code that can be carried out above an
empty stack does the same above any other one (`Machine.exec_above`).
-/

namespace OnePass

/-! ## Stacks and cells -/

namespace Machine

variable {R : Type}

/-- The machine with more words at the bottom of its stack. -/
def above (m : Machine R) (below : List R) : Machine R := { m with stack := m.stack ++ below }

/-- From the machine the act leads to another without a word from below its stack and without a
change of its memory. -/
def Local (m : Machine R) (act : Machine R → Option (Machine R)) (m' : Machine R) : Prop :=
  (∀ below, act (m.above below) = some (m'.above below)) ∧ m'.memory = m.memory

/-- What starts with taking a word off the stack. -/
theorem local_of_pop {m m' : Machine R} {f : R × Machine R → Machine R}
    (hf : ∀ w (m : Machine R) below, f (w, m.above below) = (f (w, m)).above below)
    (hmemory : ∀ w m, (f (w, m)).memory = m.memory) (h : m.pop.map f = some m') :
    m.Local (fun m => m.pop.map f) m' := by
  obtain ⟨d0, d1, a0, stack, memory, written⟩ := m
  cases stack with
  | nil => cases h
  | cons top stack =>
    cases h
    refine ⟨fun below => ?_, hmemory _ _⟩
    rw [← hf]
    rfl

variable [CommRing R] {divide : R → R → Option R}

/-- Every instruction but a store takes no word from below and leaves the memory. -/
theorem local_of_step {m m' : Machine R} {instruction : Instruction}
    (h : m.step divide instruction = some m') (hstore : instruction ≠ .store) :
    m.Local (fun m => m.step divide instruction) m' := by
  cases instruction with
  | clear => cases h; exact ⟨fun _ => rfl, rfl⟩
  | load name => cases h; exact ⟨fun _ => rfl, rfl⟩
  | address name => cases h; exact ⟨fun _ => rfl, rfl⟩
  | push => cases h; exact ⟨fun _ => rfl, rfl⟩
  | neg => cases h; exact ⟨fun _ => rfl, rfl⟩
  | store => exact absurd rfl hstore
  | popDivisor => exact local_of_pop (fun _ _ _ => rfl) (fun _ _ => rfl) h
  | add => exact local_of_pop (fun _ _ _ => rfl) (fun _ _ => rfl) h
  | sub => exact local_of_pop (fun _ _ _ => rfl) (fun _ _ => rfl) h
  | mul => exact local_of_pop (fun _ _ _ => rfl) (fun _ _ => rfl) h
  | constant digits =>
    obtain ⟨n, hn, rfl⟩ := Option.map_eq_some_iff.1 h
    exact ⟨fun _ => Option.map_eq_some_iff.2 ⟨n, hn, rfl⟩, rfl⟩
  | div =>
    obtain ⟨q, hq, rfl⟩ := Option.map_eq_some_iff.1 h
    exact ⟨fun _ => Option.map_eq_some_iff.2 ⟨q, hq, rfl⟩, rfl⟩
  | branch name =>
    by_cases hname : name = "WRITE"
    · rw [step, if_pos hname] at h
      cases h
      exact ⟨fun _ => if_pos hname, rfl⟩
    · rw [step, if_neg hname] at h
      cases h

/-- A store, too, is indifferent to what is below. -/
theorem step_above {m m' : Machine R} {instruction : Instruction}
    (h : m.step divide instruction = some m') (below : List R) :
    (m.above below).step divide instruction = some (m'.above below) := by
  by_cases hstore : instruction = .store
  · subst hstore
    obtain ⟨name, hname, rfl⟩ := Option.map_eq_some_iff.1 h
    exact Option.map_eq_some_iff.2 ⟨name, hname, rfl⟩
  · exact (local_of_step h hstore).1 below

/-- What can be done without a word of the stack below is done in the same way above it. -/
theorem exec_above {code : List Instruction} {m m' : Machine R}
    (h : exec divide code m = some m') (below : List R) :
    exec divide code (m.above below) = some (m'.above below) := by
  induction code generalizing m with
  | nil => cases h; rfl
  | cons instruction code ih =>
    -- step by step, with the same words below
    obtain ⟨m₁, hstep, hrest⟩ := Option.bind_eq_some_iff.1 h
    exact Option.bind_eq_some_iff.2 ⟨m₁.above below, step_above hstep below, ih hrest⟩

/-- Code that can be carried out can be carried out as far as one likes. -/
theorem exists_exec_of_isPrefix {xs code : List Instruction} {m m' : Machine R}
    (h : exec divide code m = some m') (hxs : xs <+: code) : ∃ m₁, exec divide xs m = some m₁ := by
  obtain ⟨ys, rfl⟩ := hxs
  rw [exec_append] at h
  obtain ⟨m₁, hm₁, -⟩ := Option.bind_eq_some_iff.1 h
  exact ⟨m₁, hm₁⟩

theorem exec_memory {code : List Instruction} {m m' : Machine R}
    (h : exec divide code m = some m') (hstore : ∀ i ∈ code, i ≠ .store) :
    m'.memory = m.memory := by
  induction code generalizing m with
  | nil => cases h; rfl
  | cons instruction code ih =>
    rw [List.forall_mem_cons] at hstore
    obtain ⟨m₁, hstep, hrest⟩ := Option.bind_eq_some_iff.1 h
    rw [ih hrest hstore.2, (local_of_step hstep hstore.1).2]

variable (divide) in
/-- However far the code is carried out, the cell is as before. -/
def Keeps (name : String) (code : List Instruction) : Prop :=
  ∀ xs, xs <+: code → ∀ m m' : Machine R, exec divide xs m = some m' →
    m'.memory name = m.memory name

theorem keeps_of_not_store {name : String} {code : List Instruction}
    (h : ∀ i ∈ code, i ≠ .store) : Keeps divide name code := fun xs hxs m m' hexec => by
  rw [exec_memory hexec fun i hi => h i (hxs.subset hi)]

/-- A cell that two pieces of code keep is kept by both together, wherever one stops in them. -/
theorem Keeps.append {name : String} {xs ys : List Instruction} (hxs : Keeps divide name xs)
    (hys : Keeps divide name ys) : Keeps divide name (xs ++ ys) := by
  rintro zs ⟨rest, happend⟩ m m' hexec
  -- the code was left in the first piece, or in the second with the first one done
  rcases List.append_eq_append_iff.1 happend with ⟨more, rfl, -⟩ | ⟨more, rfl, rfl⟩
  · exact hxs zs (List.prefix_append _ _) m m' hexec
  · rw [exec_append] at hexec
    obtain ⟨m₁, hm₁, hexec⟩ := Option.bind_eq_some_iff.1 hexec
    rw [hys more (List.prefix_append _ _) m₁ m' hexec, hxs xs List.prefix_rfl m m₁ hm₁]

/-- A store at an address that was loaded changes the cell of that name and no other. -/
theorem keeps_store {name target : String} (h : name ≠ target) :
    Keeps divide name [.address target, .store] := by
  rintro xs hxs m m' hexec
  -- the pair is left before it, between its halves, or behind it
  rcases List.prefix_cons_iff.1 hxs with rfl | ⟨ys, rfl, hys⟩
  · cases hexec
    rfl
  · rcases List.prefix_cons_iff.1 hys with rfl | ⟨zs, rfl, hzs⟩
    · cases hexec
      rfl
    · obtain rfl : zs = [] := List.prefix_nil.1 hzs
      cases hexec
      exact Function.update_of_ne h _ _

end Machine

/-- The variable that a statement gives a value. -/
def Stmt.target : Stmt → Option String
  | .print _ => none
  | .input name _ | .assign name _ => some name

/-- The code of an expression has no store. -/
theorem Expr.store_not_mem_code (e : Expr) : ∀ i ∈ e.code, i ≠ .store := by
  induction e with
  | binary op lhs rhs ihl ihr =>
    have hcombine : ∀ i ∈ Listing.code (.combine op () ()), i ≠ .store := by
      cases op <;> simp [Listing.code]
    simp only [Expr.code, List.forall_mem_append, List.forall_mem_cons]
    exact ⟨ihl, Instruction.noConfusion, ihr, hcombine⟩
  | zero => simp [Expr.code]
  | number digits => simp [Expr.code]
  | var name => simp [Expr.code]
  | call name => simp [Expr.code]

variable {R : Type} [CommRing R] (divide : R → R → Option R)

/-- A statement changes no cell but the one that it gives a value. -/
theorem Stmt.keeps_code {s : Stmt} {name : String} (h : s.target ≠ some name) :
    Machine.Keeps divide name s.code := by
  have hne {target : String} (ht : some target ≠ some name) : name ≠ target := fun heq =>
    ht (congrArg some heq.symm)
  cases s with
  | print other => exact Machine.keeps_of_not_store (by simp [Stmt.code])
  | input target digits =>
    have hconstant : ∀ i ∈ [Instruction.constant digits], i ≠ .store := by simp
    exact (Machine.keeps_of_not_store hconstant).append (Machine.keeps_store (hne h))
  | assign target e =>
    exact (Machine.keeps_of_not_store e.store_not_mem_code).append (Machine.keeps_store (hne h))

/-- The code of statements changes no cell but those that they are to give a value. -/
theorem keeps_flatMap_code {statements : List Stmt} {name : String}
    (h : ∀ s ∈ statements, s.target ≠ some name) :
    Machine.Keeps divide name (statements.flatMap Stmt.code) := by
  induction statements with
  | nil => exact Machine.keeps_of_not_store (List.forall_mem_nil _)
  | cons s ss ih =>
    rw [List.forall_mem_cons] at h
    rw [List.flatMap_cons]
    exact (s.keeps_code divide h.1).append (ih h.2)

/-! ## Exact values in a ring -/

section

variable {vars : String → Int}

/-- Without division an operator of the ring is the exact one, with its operands the other way
around. -/
theorem apply_cast {op : Operator} (h : op ≠ .div) (a b : Int) :
    (Arith.ofMachine divide).apply op (a : R) b = (op.exact a b).map Int.cast := by
  cases op with
  | add =>
    show Except.ok ((b : R) + a) = Except.ok ((a + b : Int) : R)
    rw [Int.cast_add, add_comm]
  | sub =>
    show Except.ok (-((b : R) - a)) = Except.ok ((a - b : Int) : R)
    rw [Int.cast_sub, neg_sub]
  | mul =>
    show Except.ok ((b : R) * a) = Except.ok ((a * b : Int) : R)
    rw [Int.cast_mul, mul_comm]
  | div => exact absurd rfl h

/-- Without division the machine computes the exact value, as far as the ring tells values apart. -/
theorem Expr.DivisionFree.value_cast {e : Expr} (h : e.DivisionFree) :
    e.value (.ofMachine divide) (Int.cast ∘ vars : String → R) =
      (e.value .exact vars).map Int.cast := by
  induction e with
  | zero => exact congrArg Except.ok Int.cast_zero.symm
  | number digits => exact congrArg Except.ok (Int.cast_natCast _).symm
  | var name => rfl
  | call name => rfl
  | binary op lhs rhs ihl ihr =>
    obtain ⟨hop, hlhs, hrhs⟩ := h
    rw [Expr.value, Expr.value, ihl hlhs, ihr hrhs]
    -- operands from left to right, and the first fault of them ends both
    cases lhs.value .exact vars with
    | error cause => rfl
    | ok a =>
      cases rhs.value .exact vars with
      | error cause => rfl
      | ok b => exact apply_cast divide hop a b

/-- The variables after a statement are the exact ones. -/
theorem Stmt.DivisionFree.after_cast {s : Stmt} (h : s.DivisionFree) :
    s.after (.ofMachine divide) (Int.cast ∘ vars : String → R) =
      (s.after .exact vars).map fun vars => Int.cast ∘ vars := by
  cases s with
  | print name => rfl
  | input name digits =>
    show Except.ok (Function.update _ name ((decimal digits : Nat) : R)) =
      Except.ok (Int.cast ∘ Function.update vars name (decimal digits : Int))
    rw [Function.comp_update, Int.cast_natCast]
  | assign name e =>
    have he : e.DivisionFree := h
    rw [Stmt.after, Stmt.after, he.value_cast]
    cases e.value .exact vars with
    | error cause => rfl
    | ok n => exact congrArg Except.ok (Function.comp_update _ _ _ _).symm

theorem Stmt.printed_cast (s : Stmt) :
    s.printed (Int.cast ∘ vars : String → R) = (s.printed vars).map Int.cast := by
  cases s <;> rfl

/-- Without division the machine prints the exact numbers and ends with the exact variables, as far
as the ring tells them apart. -/
theorem outcome_cast {statements : List Stmt} (h : ∀ s ∈ statements, s.DivisionFree) :
    outcome (.ofMachine divide) (Int.cast ∘ vars : String → R) statements =
      ⟨(outcome .exact vars statements).printed.map Int.cast,
        (outcome .exact vars statements).result.map fun vars => Int.cast ∘ vars⟩ := by
  induction statements generalizing vars with
  | nil => rfl
  | cons s ss ih =>
    rw [List.forall_mem_cons] at h
    have hafter : s.after (.ofMachine divide) (Int.cast ∘ vars : String → R) = _ :=
      h.1.after_cast divide
    -- a statement fails in both or in neither
    cases hexact : s.after .exact vars with
    | error cause =>
      rw [hexact] at hafter
      rw [outcome_cons_error hexact, outcome_cons_error hafter]
      rfl
    | ok vars' =>
      rw [hexact] at hafter
      rw [outcome_cons_ok hexact, outcome_cons_ok hafter, ih h.2, s.printed_cast, List.map_append]

/-- Only a division or a call has no exact value. -/
theorem Expr.Spelled.exists_value {level : Level} {e : Expr} {s : List Char}
    (h : Expr.Spelled false level e s) (hdivision : e.DivisionFree) :
    ∃ n, e.value .exact vars = .ok n := by
  -- the exact operators are total, but for the division
  have hbinary {op : Operator} {l r : Expr} {a b : Int} (hop : op ≠ .div)
      (ha : l.value .exact vars = .ok a) (hb : r.value .exact vars = .ok b) :
      ∃ n, (Expr.binary op l r).value .exact vars = .ok n := by
    rw [Expr.value, ha, hb]
    cases op with
    | add => exact ⟨_, rfl⟩
    | sub => exact ⟨_, rfl⟩
    | mul => exact ⟨_, rfl⟩
    | div => exact absurd rfl hop
  induction h with
  | number hds hw => exact ⟨_, rfl⟩
  | var hc hw => exact ⟨_, rfl⟩
  | call hcalls => exact absurd hcalls Bool.false_ne_true
  | parens he hu hw ih => exact ih hdivision
  | term he ih => exact ih hdivision
  | expression he ih => exact ih hdivision
  | binary hop hl hr hw ihl ihr =>
    obtain ⟨hne, hlhs, hrhs⟩ := hdivision
    obtain ⟨a, ha⟩ := ihl hlhs
    obtain ⟨b, hb⟩ := ihr hrhs
    exact hbinary hne ha hb
  | signed hop hr hw ih =>
    obtain ⟨hne, -, hrhs⟩ := hdivision
    obtain ⟨b, hb⟩ := ih hrhs
    exact hbinary (a := 0) hne rfl hb

/-- So a statement has an exact effect. -/
theorem Stmt.Spelled.exists_after {statement : Stmt} {s : List Char}
    (h : Stmt.Spelled false statement s) (vars : String → Int)
    (hdivision : statement.DivisionFree) : ∃ vars', statement.after .exact vars = .ok vars' := by
  cases h with
  | print hc hu hw => exact ⟨_, rfl⟩
  | input hc hds hu hv hw => exact ⟨_, rfl⟩
  | assign hc hu hv he =>
    obtain ⟨n, hn⟩ := he.exists_value hdivision
    rw [Stmt.after, hn]
    exact ⟨_, rfl⟩

/-- So statements come to an exact result. -/
theorem Statements.Spelled.exists_result {statements : List Stmt} {s : List Char}
    (h : Statements.Spelled false statements s) (vars : String → Int)
    (hdivision : ∀ x ∈ statements, x.DivisionFree) :
    ∃ vars', (outcome .exact vars statements).result = .ok vars' := by
  induction h generalizing vars with
  | last hs he =>
    obtain ⟨vars', hafter⟩ := hs.exists_after vars (hdivision _ List.mem_cons_self)
    rw [outcome_cons_ok hafter]
    exact ⟨vars', rfl⟩
  | cons hs he hss ih =>
    rw [List.forall_mem_cons] at hdivision
    obtain ⟨vars', hafter⟩ := hs.exists_after vars hdivision.1
    rw [outcome_cons_ok hafter]
    exact ih _ hdivision.2

/-! ## Values that passed every check -/

theorem inRange_of_checked {k n : Int} (h : checked k = .ok n) : InRange n := by
  have hk := eq_of_checked h
  subst hk
  unfold checked at h
  split at h
  · next hrange => exact hrange
  · cases h

/-- The value of an expression was checked last of all, or it is that of a variable. -/
theorem Expr.inRange_value {e : Expr} {n : Int} (hvars : ∀ name, InRange (vars name))
    (h : e.value .checked vars = .ok n) : InRange n := by
  cases e with
  | zero =>
    cases h
    decide
  | number digits => exact inRange_of_checked h
  | var name =>
    cases h
    exact hvars name
  | call name => cases h
  | binary op lhs rhs =>
    obtain ⟨a, -, h⟩ := of_bind_eq_ok h
    obtain ⟨b, -, h⟩ := of_bind_eq_ok h
    obtain ⟨k, -, h⟩ := of_bind_eq_ok h
    exact inRange_of_checked h

/-- A statement that succeeds keeps all variables in range. -/
theorem Stmt.inRange_after {s : Stmt} {vars' : String → Int} (hvars : ∀ name, InRange (vars name))
    (h : s.after .checked vars = .ok vars') : ∀ name, InRange (vars' name) := by
  have hupdate {target : String} {n : Int} (hn : InRange n) (name : String) :
      InRange (Function.update vars target n name) := by
    rw [Function.update_apply]
    split
    · exact hn
    · exact hvars name
  cases s with
  | print name =>
    cases h
    exact hvars
  | input name digits =>
    obtain ⟨n, hn, h⟩ := of_bind_eq_ok h
    cases h
    exact hupdate (inRange_of_checked hn)
  | assign name e =>
    obtain ⟨n, hn, h⟩ := of_bind_eq_ok h
    cases h
    exact hupdate (Expr.inRange_value hvars hn)

/-- What a run prints fits in words. -/
theorem inRange_printed {statements : List Stmt} (hvars : ∀ name, InRange (vars name)) :
    ∀ n ∈ (outcome .checked vars statements).printed, InRange n := by
  induction statements generalizing vars with
  | nil => exact List.forall_mem_nil _
  | cons s ss ih =>
    cases hafter : s.after .checked vars with
    | error cause =>
      rw [outcome_cons_error hafter]
      exact List.forall_mem_nil _
    | ok vars' =>
      rw [outcome_cons_ok hafter]
      refine List.forall_mem_append.2 ⟨?_, ih (Stmt.inRange_after hvars hafter)⟩
      cases s with
      | print name => exact List.forall_mem_singleton.2 (hvars name)
      | input name digits => exact List.forall_mem_nil _
      | assign name e => exact List.forall_mem_nil _

end

/-- A word of 32 bits that an integer in range is mapped to is read as that integer. -/
theorem toInt_cast_of_inRange {n : Int} (h : InRange n) : ((n : Int) : BitVec 32).toInt = n := by
  obtain ⟨hlo, hhi⟩ := h
  rw [BitVec.toInt_intCast]
  exact Int.bmod_eq_of_le (by omega) (by omega)

/-! ## Texts without calls -/

/-- Somewhere in the text a letter is followed by `(` and `)`, with nothing but blanks between. -/
def NamesCall (p : List Char) : Prop :=
  ∃ c u v, c.isAlpha = true ∧ Blanks u ∧ Blanks v ∧ c :: (u ++ '(' :: (v ++ [')'])) <:+: p

/-- What is in a part of the text is in the text. -/
theorem NamesCall.mono {s t : List Char} (h : NamesCall s) (hst : s <:+: t) : NamesCall t := by
  obtain ⟨c, u, v, hc, hu, hv, hs⟩ := h
  exact ⟨c, u, v, hc, hu, hv, hs.trans hst⟩

/-- An expression that is written without a call is one of the language without them. -/
theorem Expr.Spelled.of_not_namesCall {calls : Bool} {level : Level} {e : Expr} {s : List Char}
    (h : Expr.Spelled calls level e s) (hs : ¬ NamesCall s) : Expr.Spelled false level e s := by
  induction h with
  | number hds hw => exact .number hds hw
  | var hc hw => exact .var hc hw
  | @call c u v w hcalls hc hu hv hw =>
    -- the call itself is what the text does not have
    exact absurd ⟨c, u, v, hc, hu, hv, [], w, by simp⟩ hs
  | @parens e s u w he hu hw ih =>
    exact .parens (ih fun h => hs (h.mono ⟨'(' :: u, ')' :: w, by simp⟩)) hu hw
  | term he ih => exact .term (ih hs)
  | expression he ih => exact .expression (ih hs)
  | @binary level op l r s t w hop hl hr hw ihl ihr =>
    refine .binary hop (ihl fun h => hs (h.mono ⟨[], op.toChar :: (w ++ t), rfl⟩)) (ihr ?_) hw
    exact fun h => hs (h.mono ⟨s ++ op.toChar :: w, [], by simp⟩)
  | @signed op r t w hop hr hw ih =>
    exact .signed hop (ih fun h => hs (h.mono ⟨op.toChar :: w, [], by simp⟩)) hw

theorem Stmt.Spelled.of_not_namesCall {calls : Bool} {statement : Stmt} {s : List Char}
    (h : Stmt.Spelled calls statement s) (hs : ¬ NamesCall s) :
    Stmt.Spelled false statement s := by
  cases h with
  | print hc hu hw => exact .print hc hu hw
  | input hc hds hu hv hw => exact .input hc hds hu hv hw
  | @assign c e s u v hc hu hv he =>
    refine .assign hc hu hv (he.of_not_namesCall fun h => hs (h.mono ?_))
    exact ⟨c :: (u ++ '=' :: v), [], by simp⟩

theorem Statements.Spelled.of_not_namesCall {calls : Bool} {statements : List Stmt}
    {s : List Char} (h : Statements.Spelled calls statements s) (hs : ¬ NamesCall s) :
    Statements.Spelled false statements s := by
  induction h with
  | @last x t e hst he =>
    exact .last (hst.of_not_namesCall fun h => hs (h.mono ⟨[], e, rfl⟩)) he
  | @cons x ss t e u hst he hss ih =>
    refine .cons (hst.of_not_namesCall fun h => hs (h.mono ⟨[], e ++ u, rfl⟩)) he (ih ?_)
    exact fun h => hs (h.mono ⟨t ++ e, [], by simp⟩)

theorem Program.Spelled.of_not_namesCall {calls : Bool} {program : List Stmt} {p : List Char}
    (h : Program.Spelled calls program p) (hp : ¬ NamesCall p) :
    Program.Spelled false program p := by
  obtain ⟨w, t, hw, ht, rfl⟩ := h
  exact ⟨w, t, hw, ht.of_not_namesCall fun h => hp (h.mono ⟨w, [], by simp⟩), rfl⟩

/-! ## Compiled programs -/

/-- Code without divisions and calls computes the exact values in the ring. -/
theorem Program.Spelled.exec_cast {program : List Stmt} {p : List Char}
    (h : Program.Spelled false program p) (hdivision : '/' ∉ p) {m : Machine R}
    (hmemory : m.memory = fun _ => 0) (hwritten : m.written = []) :
    ∃ vars m', (outcome .exact (fun _ => 0) program).result = .ok vars ∧
      Machine.exec divide (program.flatMap Stmt.code) m = some m' ∧ m'.stack = m.stack ∧
      (∀ name, m'.memory name = vars name) ∧
      m'.written = (outcome .exact (fun _ => 0) program).printed.map Int.cast := by
  have hfree := h.divisionFree hdivision
  obtain ⟨w, t, hw, ht, -⟩ := h
  obtain ⟨vars, hvars⟩ := ht.exists_result (fun _ => 0) hfree
  have hcode := ht.carriesOut divide m
  -- at the start all variables are zero on both sides
  have hzero : m.memory = Int.cast ∘ fun _ : String => (0 : Int) := by
    rw [hmemory]
    exact funext fun _ => Int.cast_zero.symm
  rw [hzero, outcome_cast divide hfree, hvars] at hcode
  obtain ⟨m', hexec, hmemory', hstack, hwritten'⟩ := hcode
  refine ⟨vars, m', hvars, hexec, hstack, congrFun hmemory', ?_⟩
  rw [hwritten', hwritten]
  rfl

/-- Numbers in range are read from the words that they are mapped to. -/
theorem map_toInt_cast {numbers : List Int} (h : ∀ n ∈ numbers, InRange n) :
    (numbers.map Int.cast : List (BitVec 32)).map BitVec.toInt = numbers := by
  rw [List.map_map]
  exact (List.map_congr_left fun n hn => toInt_cast_of_inRange (h n hn)).trans (List.map_id _)

/-- A program that is compiled, without a division or a call, is carried out by a machine of 32 bit
words above any stack, which is neither changed nor looked at. The machine ends with the exact
values of the program modulo `2 ^ 32` and has written those, and no cell changes that is not given a
value by the text. If the program runs, the words are those of the run. -/
theorem compile_wraps {src : String} {p rest : List Char} {n : Nat}
    (h : (compile (.ofText src)).result = .ok n) (hsrc : src.toList = p ++ ';' :: rest)
    (hp : ';' ∉ p) (hdivision : '/' ∉ p) (hcall : ¬ NamesCall p) :
    ∃ code, assemble (compile (.ofText src)).sink.text = some code ∧ n = code.length ∧
      (∃ program, Program.Spelled true program p) ∧
      ∀ (divide : BitVec 32 → BitVec 32 → Option (BitVec 32)) (m : Machine (BitVec 32)),
        m.memory = (fun _ => 0) → m.written = [] →
        ∃ m', Machine.exec divide code m = some m' ∧ m'.stack = m.stack ∧
          (∀ xs, xs <+: code → ∃ m₁, Machine.exec divide xs { m with stack := [] } = some m₁ ∧
            Machine.exec divide xs m = some { m₁ with stack := m₁.stack ++ m.stack }) ∧
          (∀ program, Program.Spelled true program p →
            ∃ vars, (outcome .exact (fun _ => 0) program).result = .ok vars ∧
              (∀ name, m'.memory name = (vars name : BitVec 32)) ∧
              m'.written = (outcome .exact (fun _ => 0) program).printed.map Int.cast ∧
              ∀ name, (∀ s ∈ program, s.target ≠ some name) →
                ∀ xs, xs <+: code → ∀ m₁, Machine.exec divide xs m = some m₁ →
                  m₁.memory name = 0) ∧
          ∀ store, (run (.ofText src)).result = .ok store →
            (∀ name, (m'.memory name).toInt = (store.get name).toInt) ∧
              (run (.ofText src)).sink.text = lines (m'.written.map BitVec.toInt) := by
  obtain ⟨q, hprogram, -, -⟩ := program_of_execute h
  obtain ⟨program, p', rest', hspelled, hsrc', -⟩ := Grammar.spelled_of_program hprogram
  obtain ⟨rfl, -⟩ := eq_of_append_cons (hsrc.symm.trans hsrc') hp hspelled.not_mem
  obtain ⟨hcount, hlisting⟩ := compile_eq_ok hspelled hsrc
  refine ⟨_, hlisting, Except.ok.inj (h.symm.trans hcount), ⟨program, hspelled⟩, ?_⟩
  intro divide m hmemory hwritten
  obtain ⟨-, m', -, hexec, hstack, -⟩ :=
    (hspelled.of_not_namesCall hcall).exec_cast divide hdivision hmemory hwritten
  -- whichever tree the text is of, the listing is its code, and so the machine ends as it means
  have hmeaning (other : List Stmt) (hother : Program.Spelled true other p) :
      program.flatMap Stmt.code = other.flatMap Stmt.code ∧
      ∃ vars, (outcome .exact (fun _ => 0) other).result = .ok vars ∧
        (∀ name, m'.memory name = (vars name : BitVec 32)) ∧
        m'.written = (outcome .exact (fun _ => 0) other).printed.map Int.cast := by
    have hcode : program.flatMap Stmt.code = other.flatMap Stmt.code :=
      Option.some.inj (hlisting.symm.trans (compile_eq_ok hother hsrc).2)
    obtain ⟨vars, m'', hvars, hexec', -, hmemory', hwritten'⟩ :=
      (hother.of_not_namesCall hcall).exec_cast divide hdivision hmemory hwritten
    rw [← hcode, hexec] at hexec'
    cases hexec'
    exact ⟨hcode, vars, hvars, hmemory', hwritten'⟩
  refine ⟨m', hexec, hstack, fun xs hxs => ?_, fun other hother => ?_, fun store hstore => ?_⟩
  · -- what is done above an empty stack is done above this one
    obtain ⟨-, m₀, -, hempty, -⟩ := (hspelled.of_not_namesCall hcall).exec_cast divide hdivision
      (m := { m with stack := [] }) hmemory hwritten
    obtain ⟨m₁, hm₁⟩ := Machine.exists_exec_of_isPrefix hempty hxs
    exact ⟨m₁, hm₁, Machine.exec_above hm₁ m.stack⟩
  · obtain ⟨hcode, vars, hvars, hmemory', hwritten'⟩ := hmeaning other hother
    refine ⟨vars, hvars, hmemory', hwritten', fun name hname xs hxs m₁ hm₁ => ?_⟩
    rw [hcode] at hxs
    rw [keeps_flatMap_code divide hname xs hxs m m₁ hm₁, hmemory]
  · obtain ⟨other, p', rest', vars, hother, hsrc', hresult, hholds, htext⟩ := outcome_of_run hstore
    obtain ⟨rfl, -⟩ := eq_of_append_cons (hsrc.symm.trans hsrc') hp hother.not_mem
    obtain ⟨-, vars', hvars', hmemory', hwritten'⟩ := hmeaning other (hother.of_false true)
    -- no check failed, so the exact values are those of the run, and they fit in words
    rw [outcome_exact hresult] at hvars' hwritten'
    obtain rfl : vars = vars' := Except.ok.inj (hresult.symm.trans hvars')
    have hprinted : ∀ n ∈ (outcome .checked (fun _ => 0) other).printed, InRange n :=
      inRange_printed fun _ => by decide
    refine ⟨fun name => ?_, ?_⟩
    · rw [hmemory', ← hholds name]
      exact toInt_cast_of_inRange (Word.inRange _)
    · rw [htext, hwritten', map_toInt_cast hprinted]

/-- One less than the least word is the greatest. Neither `2147483648` nor the difference is a word
that a run can hold. -/
theorem compile_wraps_overflow :
    (run (.ofText "a=-2147483648-1 !a;")).result = .error .overflow ∧
    ∃ code, assemble (compile (.ofText "a=-2147483648-1 !a;")).sink.text = some code ∧
      ∃ m' : Machine (BitVec 32), Machine.exec (fun _ _ => none) code
          ⟨7, 7, some "B", [5, 6], fun _ => 0, []⟩ = some m' ∧
        m'.stack = [5, 6] ∧ m'.memory "A" = 2147483647 ∧ m'.written = [2147483647] := by
  have hcompile : (compile (.ofText "a=-2147483648-1 !a;")).result = .ok 13 := by decide +kernel
  have hsrc : "a=-2147483648-1 !a;".toList = "a=-2147483648-1 !a".toList ++ ';' :: [] := by decide
  have hcall : ¬ NamesCall "a=-2147483648-1 !a".toList := by
    rintro ⟨c, u, v, -, -, -, hcall⟩
    have hmem : '(' ∈ c :: (u ++ '(' :: (v ++ [')'])) := by simp
    exact absurd (hcall.subset hmem) (by decide)
  obtain ⟨code, hcode, -, -, hmachine⟩ :=
    compile_wraps hcompile hsrc (by decide) (by decide) hcall
  obtain ⟨m', hexec, hstack, -, hmeaning, -⟩ :=
    hmachine (fun _ _ => none) ⟨7, 7, some "B", [5, 6], fun _ => 0, []⟩ rfl rfl
  have hnone : Blanks [] := by decide
  have hnumber (ds : String) (w : List Char) (hds : Digits ds.toList) (hw : Blanks w) :
      Expr.Spelled true .term (.number ds) (ds.toList ++ w) := by
    have hfactor : Expr.Spelled true .factor _ _ := .number hds hw
    rw [String.ofList_toList] at hfactor
    exact .term hfactor
  have hvalue : Expr.Spelled true .expression
      (.binary .sub (.binary .sub .zero (.number "2147483648")) (.number "1")) _ :=
    .binary rfl (.signed rfl (hnumber "2147483648" [] (by decide) hnone) hnone)
      (hnumber "1" [' '] (by decide) (by decide)) hnone
  -- the tree of the text, given by hand
  have hspelled : Program.Spelled true
      [.assign "A" (.binary .sub (.binary .sub .zero (.number "2147483648")) (.number "1")),
        .print "A"] "a=-2147483648-1 !a".toList :=
    ⟨[], _, hnone, .cons (.assign (c := 'a') rfl hnone hnone hvalue) .none
      (.last (.print (c := 'a') rfl hnone hnone) .none), by decide⟩
  obtain ⟨vars, hvars, hmemory, hwritten, -⟩ := hmeaning _ hspelled
  obtain rfl : _ = vars := Except.ok.inj hvars
  refine ⟨by decide +kernel, code, hcode, m', hexec, hstack, ?_, ?_⟩
  · rw [hmemory]
    decide +kernel
  · rw [hwritten]
    decide +kernel

end OnePass
