import OnePass.Proofs.Acceptance

/-!
# Reading undoes spelling

The steps that a tree stands for are there as data: in post-order, with the values numbered in the
order in which they are made (`Expr.steps`, `Stmt.steps`, `stepsOf`). Every well-formed program has
spellings, and from each of them the steps of its trees are handed over and no others
(`steps_of_spelled`): blanks, the case of letters, line ends and redundant parentheses leave no
trace.
-/

namespace OnePass

variable {σ α : Type}

/-! ## Well-formed trees -/

/-- A name: a letter in upper case. -/
def IsName (name : String) : Prop := ∃ c : Char, c.isAlpha = true ∧ name = nameOf c

/-- Numbers have digits, names are letters, calls occur only where there are calls, and zero stands
to the left of `+` and `-` only. -/
def Expr.WellFormed (calls : Bool) : Expr → Prop
  | .zero => False
  | .number digits => Digits digits.toList
  | .var name => IsName name
  | .call name => calls = true ∧ IsName name
  | .binary op lhs rhs =>
    (lhs.WellFormed calls ∨ lhs = .zero ∧ op.isAdditive = true) ∧ rhs.WellFormed calls

def Stmt.WellFormed (calls : Bool) : Stmt → Prop
  | .print name => IsName name
  | .input name digits => IsName name ∧ Digits digits.toList
  | .assign name value => IsName name ∧ value.WellFormed calls

theorem blanks_nil : Blanks [] := fun _ h => nomatch h

/-- In parentheses an expression is a construct of every level. -/
theorem Expr.Spelled.enclosed {calls : Bool} {e : Expr} {s : List Char}
    (h : Expr.Spelled calls .expression e s) (level : Level) :
    ∃ t, Expr.Spelled calls level e t := by
  have hfactor := Expr.Spelled.parens h blanks_nil blanks_nil
  cases level with
  | factor => exact ⟨_, hfactor⟩
  | term => exact ⟨_, .term hfactor⟩
  | expression => exact ⟨_, .expression (.term hfactor)⟩

/-- Every well-formed expression can be spelled. -/
theorem Expr.WellFormed.exists_spelled {calls : Bool} {e : Expr} (h : e.WellFormed calls) :
    ∃ s, Expr.Spelled calls .expression e s := by
  induction e with
  | zero => exact h.elim
  | number digits =>
    have hfactor : Expr.Spelled calls .factor _ _ := .number h blanks_nil
    rw [String.ofList_toList] at hfactor
    exact ⟨_, .expression (.term hfactor)⟩
  | var name =>
    obtain ⟨c, hc, rfl⟩ := h
    exact ⟨_, .expression (.term (.var hc blanks_nil))⟩
  | call name =>
    obtain ⟨hcalls, c, hc, rfl⟩ := h
    exact ⟨_, .expression (.term (.call hcalls hc blanks_nil blanks_nil blanks_nil))⟩
  | binary op lhs rhs ihl ihr =>
    obtain ⟨hlhs, hrhs⟩ := h
    obtain ⟨t, ht⟩ := ihr hrhs
    -- parentheses around every operand: they are always allowed, and hardly ever needed
    obtain ⟨t', hterm⟩ := ht.enclosed .term
    obtain ⟨t'', hfactor⟩ := ht.enclosed .factor
    rcases hlhs with hlhs | ⟨rfl, hop⟩
    · obtain ⟨s, hs⟩ := ihl hlhs
      obtain ⟨s', hs'⟩ := hs.enclosed .term
      cases hop : op.isAdditive with
      | true =>
        have hsum : Level.expression.admits op = true := hop
        exact ⟨_, .binary hsum hs hterm blanks_nil⟩
      | false =>
        have hproduct : Level.term.admits op = true := by
          show op.isMultiplicative = true
          rw [Operator.isMultiplicative_eq_not_isAdditive, hop]
          rfl
        exact ⟨_, .expression (.binary hproduct hs' hfactor blanks_nil)⟩
    · exact ⟨_, .signed hop hterm blanks_nil⟩

/-- So can every well-formed statement. -/
theorem Stmt.WellFormed.exists_spelled {calls : Bool} {statement : Stmt}
    (h : statement.WellFormed calls) : ∃ s, Stmt.Spelled calls statement s := by
  cases statement with
  | print name =>
    obtain ⟨c, hc, rfl⟩ := h
    exact ⟨_, .print hc blanks_nil blanks_nil⟩
  | input name digits =>
    obtain ⟨⟨c, hc, rfl⟩, hds⟩ := h
    have hinput : Stmt.Spelled calls _ _ := .input hc hds blanks_nil blanks_nil blanks_nil
    -- the spelling is one of the digits as a list
    rw [String.ofList_toList] at hinput
    exact ⟨_, hinput⟩
  | assign name value =>
    obtain ⟨⟨c, hc, rfl⟩, hvalue⟩ := h
    obtain ⟨s, hs⟩ := hvalue.exists_spelled
    exact ⟨_, .assign hc blanks_nil blanks_nil hs⟩

/-- Every well-formed program has a spelling. -/
theorem exists_spelled {calls : Bool} {statements : List Stmt} (hne : statements ≠ [])
    (h : ∀ s ∈ statements, s.WellFormed calls) : ∃ p, Program.Spelled calls statements p := by
  -- one statement behind the other, with no line ends
  have hstatements : ∃ t, Statements.Spelled calls statements t := by
    induction statements with
    | nil => exact absurd rfl hne
    | cons s ss ih =>
      obtain ⟨t, ht⟩ := (h s List.mem_cons_self).exists_spelled
      cases ss with
      | nil => exact ⟨_, .last ht .none⟩
      | cons s' ss =>
        obtain ⟨u, hu⟩ := ih (List.cons_ne_nil _ _) fun x hx => h x (List.mem_cons_of_mem _ hx)
        exact ⟨_, .cons ht .none hu⟩
  obtain ⟨t, ht⟩ := hstatements
  exact ⟨t, [], t, blanks_nil, ht, rfl⟩

/-! ## The steps of a tree -/

/-- How many values the constructs of an expression have: one each, and one more for every left
operand that is put aside. -/
def Expr.values : Expr → Nat
  | .binary _ lhs rhs => lhs.values + 1 + rhs.values + 1
  | _ => 1

/-- The number of the value of an expression, if the first one made for it is number `n`. -/
def Expr.result (n : Nat) (e : Expr) : Nat := n + e.values - 1

/-- The steps of an expression in post-order, with the values numbered from `n`. -/
def Expr.steps (n : Nat) : Expr → List (Step Nat)
  | .zero => [.zero]
  | .number digits => [.number digits]
  | .var name => [.load name]
  | .call name => [.call name]
  | .binary op lhs rhs =>
    let held := n + lhs.values
    lhs.steps n ++ .hold (lhs.result n) :: rhs.steps (held + 1)
      ++ [.combine op held (rhs.result (held + 1))]

def Stmt.values : Stmt → Nat
  | .print _ => 0
  | .input _ _ => 1
  | .assign _ value => value.values

def Stmt.steps (n : Nat) : Stmt → List (Step Nat)
  | .print name => [.print name]
  | .input name digits => [.number digits, .assign name n]
  | .assign name value => value.steps n ++ [.assign name (value.result n)]

/-- The steps of statements, one after another, with the values numbered from `n`. -/
def stepsOf (n : Nat) : List Stmt → List (Step Nat)
  | [] => []
  | s :: ss => s.steps n ++ stepsOf (n + s.values) ss

/-! ## Recordings -/

namespace Trace

/-- The steps that were noted, the oldest first. -/
def steps (trace : Trace) : List (Step Nat) := trace.entries.reverse.map Entry.step

/-- The recording has gone on by the steps and has made so many values. -/
structure Noted (t : Trace) (steps' : List (Step Nat)) (values : Nat) (t' : Trace) : Prop where
  steps : t'.steps = t.steps ++ steps'
  values : t'.values = t.values + values

/-- Steps are noted one list behind the other, and their values are counted together. -/
theorem Noted.trans {t t' t'' : Trace} {xs ys : List (Step Nat)} {n k : Nat}
    (h : t.Noted xs n t') (h' : t'.Noted ys k t'') : t.Noted (xs ++ ys) (n + k) t'' := by
  refine ⟨?_, ?_⟩
  · rw [h'.steps, h.steps, List.append_assoc]
  · rw [h'.values, h.values, Nat.add_assoc]

/-- A step is noted, and its value, if it has one, is the next number. -/
theorem note_eq_ok (step : Step Nat) (t : Trace) :
    ∃ t', note none step t = .ok t.values t' ∧
      t.Noted [step] (if step.hasValue then 1 else 0) t' := by
  refine ⟨_, rfl, ?_, ?_⟩
  · simp [steps]
  · cases step.hasValue <;> simp

/-- A step without a value is noted, and no number is used up. -/
theorem note_map_eq_ok (step : Step Nat) (h : step.hasValue = false) (t : Trace) :
    ∃ t', ((fun _ => ()) <$> note none step) t = .ok () t' ∧ t.Noted [step] 0 t' := by
  obtain ⟨t', hnote, hnoted⟩ := note_eq_ok step t
  rw [h, if_neg Bool.false_ne_true] at hnoted
  refine ⟨t', ?_, hnoted⟩
  show EStateM.map _ (note none step) t = _
  rw [EStateM.map, hnote]

end Trace

/-- How a recording takes calls that it notes, if there are any. -/
def Trace.Calls.ofBool (b : Bool) : Trace.Calls := if b then .noted else .absent

theorem Trace.calls_ofBool (b : Bool) : (Trace.semantics (.ofBool b)).calls = b := by
  cases b <;> rfl

/-- The steps of an operator: its left operand is put aside before its right one is read. -/
theorem Trace.binary_noted {b : Bool} (op : Operator) {l r : Expr}
    (hl : ∀ t : Trace, ∃ t', l.drive (Trace.semantics (.ofBool b)) t = .ok (l.result t.values) t' ∧
      t.Noted (l.steps t.values) l.values t')
    (hr : ∀ t : Trace, ∃ t', r.drive (Trace.semantics (.ofBool b)) t = .ok (r.result t.values) t' ∧
      t.Noted (r.steps t.values) r.values t') (t : Trace) :
    ∃ t', (Expr.binary op l r).drive (Trace.semantics (.ofBool b)) t =
        .ok ((Expr.binary op l r).result t.values) t' ∧
      t.Noted ((Expr.binary op l r).steps t.values) (Expr.binary op l r).values t' := by
  obtain ⟨t₁, hleft, hnoted₁⟩ := hl t
  obtain ⟨t₂, hhold, hnoted₂⟩ := note_eq_ok (.hold (l.result t.values)) t₁
  -- the value put aside has the next number behind those of the left operand
  have hheld : t₁.values = t.values + l.values := hnoted₁.values
  have hnext : t₂.values = t.values + l.values + 1 := by
    rw [hnoted₂.values, hheld]
    rfl
  obtain ⟨t₃, hright, hnoted₃⟩ := hr t₂
  obtain ⟨t₄, hcombine, hnoted₄⟩ :=
    note_eq_ok (.combine op t₁.values (r.result t₂.values)) t₃
  have hresult : t₃.values = (Expr.binary op l r).result t.values := by
    rw [hnoted₃.values, hnext, Expr.result, Expr.values]
    omega
  refine ⟨t₄, ?_, ?_⟩
  · rw [Expr.drive, Grammar.action_bind_of_ok hleft]
    refine (Grammar.action_bind_of_ok hhold).trans ?_
    rw [Grammar.action_bind_of_ok hright, ← hresult]
    exact hcombine
  · have hnoted := ((hnoted₁.trans hnoted₂).trans hnoted₃).trans hnoted₄
    rw [hheld, hnext] at hnoted
    simpa [Expr.steps, Expr.values, Step.hasValue] using hnoted

/-- An expression that is driven on a recording leaves its steps there. -/
theorem Expr.Spelled.noted {b : Bool} {level : Level} {e : Expr} {s : List Char}
    (h : Expr.Spelled b level e s) (t : Trace) :
    ∃ t', e.drive (Trace.semantics (.ofBool b)) t = .ok (e.result t.values) t' ∧
      t.Noted (e.steps t.values) e.values t' := by
  induction h generalizing t with
  | @number ds w hds hw => exact Trace.note_eq_ok (.number (String.ofList ds)) t
  | @var c w hc hw => exact Trace.note_eq_ok (.load (nameOf c)) t
  | @call c u v w hcalls hc hu hv hw =>
    subst hcalls
    exact Trace.note_eq_ok (.call (nameOf c)) t
  | parens he hu hw ih => exact ih t
  | term he ih => exact ih t
  | expression he ih => exact ih t
  | @binary level op l r s u w hop hl hr hw ihl ihr => exact Trace.binary_noted op ihl ihr t
  | @signed op r u w hop hr hw ih =>
    -- a sign notes its zero first
    exact Trace.binary_noted op (l := .zero) (Trace.note_eq_ok .zero) ih t

/-- A recording notes the steps of a statement. -/
theorem Stmt.Spelled.noted {b : Bool} {statement : Stmt} {s : List Char}
    (h : Stmt.Spelled b statement s) (t : Trace) :
    ∃ t', statement.drive (Trace.semantics (.ofBool b)) t = .ok () t' ∧
      t.Noted (statement.steps t.values) statement.values t' := by
  cases h with
  | @print c u w hc hu hw => exact Trace.note_map_eq_ok (.print (nameOf c)) rfl t
  | @input c ds u v w hc hds hu hv hw =>
    -- the literal is noted, and the assignment behind it
    obtain ⟨t₁, hnumber, hnoted₁⟩ := Trace.note_eq_ok (.number (String.ofList ds)) t
    obtain ⟨t₂, hassign, hnoted₂⟩ := Trace.note_map_eq_ok (.assign (nameOf c) t.values) rfl t₁
    exact ⟨t₂, (Grammar.action_bind_of_ok hnumber).trans hassign, hnoted₁.trans hnoted₂⟩
  | @assign c e s u v hc hu hv he =>
    obtain ⟨t₁, hvalue, hnoted₁⟩ := he.noted t
    obtain ⟨t₂, hassign, hnoted₂⟩ :=
      Trace.note_map_eq_ok (.assign (nameOf c) (e.result t.values)) rfl t₁
    exact ⟨t₂, (Grammar.action_bind_of_ok hvalue).trans hassign, hnoted₁.trans hnoted₂⟩

/-- And those of statements, with the numbers going on from one to the next. -/
theorem Statements.Spelled.noted {b : Bool} {statements : List Stmt} {s : List Char}
    (h : Statements.Spelled b statements s) (t : Trace) :
    ∃ t' n, driveAll (Trace.semantics (.ofBool b)) statements t = .ok () t' ∧
      t.Noted (stepsOf t.values statements) n t' := by
  induction h generalizing t with
  | @last s u e hs he =>
    obtain ⟨t₁, hstatement, hnoted⟩ := hs.noted t
    refine ⟨t₁, s.values, ?_, ?_⟩
    · rw [driveAll, Grammar.action_bind_of_ok hstatement]
      rfl
    · rw [stepsOf, stepsOf, List.append_nil]
      exact hnoted
  | cons hs he hss ih =>
    obtain ⟨t₁, hstatement, hnoted₁⟩ := hs.noted t
    obtain ⟨t₂, n, hstatements, hnoted₂⟩ := ih t₁
    -- the numbers start where those of the first statement end
    rw [hnoted₁.values] at hnoted₂
    refine ⟨t₂, _, ?_, hnoted₁.trans hnoted₂⟩
    rw [driveAll, Grammar.action_bind_of_ok hstatement]
    exact hstatements

/-! ## Reading a spelling -/

/-- A well-formed program has spellings, and each of them, with `;` and anything behind it, is read
as the program. A semantics that never fails goes through exactly what the trees mean to it; a
recording notes exactly the steps of the trees. -/
theorem steps_of_spelled {calls : Bool} {program : List Stmt} (hne : program ≠ [])
    (hwf : ∀ s ∈ program, s.WellFormed calls) :
    (∃ p, Program.Spelled calls program p) ∧
    ∀ p rest, Program.Spelled calls program p →
      (∀ {σ α : Type} (m : Semantics σ α) (state : σ), m.calls = calls → m.NeverFails →
        ∃ q, Grammar.program m.timeless
            (.start (.ofText (String.ofList (p ++ ';' :: rest))) state) = .ok () q ∧
          driveAll m program state = .ok () q.state ∧ q.cursor.AtSentinel p.length rest) ∧
      ∃ q, Grammar.program (Trace.semantics (.ofBool calls)).timeless
          (.start (.ofText (String.ofList (p ++ ';' :: rest))) {}) = .ok () q ∧
        q.state.steps = stepsOf 0 program := by
  refine ⟨exists_spelled hne hwf, fun p rest hp => ?_⟩
  have hsrc : (String.ofList (p ++ ';' :: rest)).toList = p ++ ';' :: rest := String.toList_ofList
  have hstatements := hp
  obtain ⟨w, t, hw, ht, -⟩ := hstatements
  refine ⟨?_, ?_⟩
  · -- no step of a semantics like that fails, so the whole program is driven
    rintro σ α m state rfl hm
    obtain ⟨state', hdrive⟩ := hm.driveAll ht state
    exact ⟨_, Grammar.program_eq_ok m hp hsrc hdrive, hdrive, Cursor.atSentinel_skip hsrc⟩
  · obtain ⟨t', n, hdrive, hnoted⟩ := ht.noted {}
    rw [← Trace.calls_ofBool calls] at hp
    exact ⟨_, Grammar.program_eq_ok _ hp hsrc hdrive, hnoted.steps⟩

/-- A signed factor and a call, spelled with blanks, redundant parentheses and small letters. -/
theorem steps_of_spelled_signed :
    (∀ s ∈ [Stmt.assign "A" (.binary .mul (.binary .sub .zero (.var "B")) (.call "F")),
        .print "A"], s.WellFormed true) ∧
    ∃ q, Grammar.program (Trace.semantics .noted).timeless
        (.start (.ofText (String.ofList ("\ta = ( -b)*((f( )))\r\n!a".toList ++ ';' :: ['x'])))
          {}) = .ok () q ∧
      q.state.steps = [.zero, .hold 0, .load "B", .combine .sub 1 2, .hold 3, .call "F",
        .combine .mul 4 5, .assign "A" 6, .print "A"] := by
  have hnames : IsName "A" ∧ IsName "B" ∧ IsName "F" :=
    ⟨⟨'A', by decide, by decide⟩, ⟨'B', by decide, by decide⟩, ⟨'F', by decide, by decide⟩⟩
  have hwf : ∀ s ∈ [Stmt.assign "A" (.binary .mul (.binary .sub .zero (.var "B")) (.call "F")),
      .print "A"], s.WellFormed true := by
    simp [Stmt.WellFormed, Expr.WellFormed, hnames, Operator.isAdditive]
  have hspace : Blanks [' '] := by decide
  have hsigned : Expr.Spelled true .expression (.binary .sub .zero (.var "B")) ['-', 'b'] :=
    .signed rfl (.term (.var (c := 'b') rfl blanks_nil)) blanks_nil
  have hcall : Expr.Spelled true .expression (.call "F") ['f', '(', ' ', ')'] :=
    .expression (.term (.call (c := 'f') rfl rfl blanks_nil hspace blanks_nil))
  have hcalls : Expr.Spelled true .factor (.call "F") ['(', '(', 'f', '(', ' ', ')', ')', ')'] :=
    .parens (.expression (.term (.parens hcall blanks_nil blanks_nil))) blanks_nil blanks_nil
  have hassign : Stmt.Spelled true
      (.assign "A" (.binary .mul (.binary .sub .zero (.var "B")) (.call "F"))) _ :=
    .assign (c := 'a') rfl hspace hspace
      (.expression (.binary rfl (.term (.parens hsigned hspace blanks_nil)) hcalls blanks_nil))
  have hprint : Stmt.Spelled true (.print "A") ['!', 'a'] :=
    .print (c := 'a') rfl blanks_nil blanks_nil
  -- the two statements with the line end between them
  have hprogram : Program.Spelled true _ "\ta = ( -b)*((f( )))\r\n!a".toList :=
    ⟨['\t'], _, by decide, .cons hassign (.crlf blanks_nil) (.last hprint .none), by decide⟩
  obtain ⟨-, hreads⟩ := steps_of_spelled (List.cons_ne_nil _ _) hwf
  exact ⟨hwf, (hreads _ ['x'] hprogram).2⟩

end OnePass
