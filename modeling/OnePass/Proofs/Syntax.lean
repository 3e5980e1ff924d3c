import Mathlib
import OnePass.Grammar

/-!
# Programs as trees, and their spellings

No parser of the library builds a tree. The trees here are what a text is *about*: an expression in
which every operator has its two operands (`Expr`), a statement (`Stmt`), and a program as the list
of its statements. A leading sign is an operator whose left operand is the implicit `Expr.zero`.

* **`Expr.drive`**, **`Stmt.drive`**, **`driveAll`** — what a tree means to a semantics: its
  constructs, handed over in post-order, each left operand put aside before the right one.
* **`Expr.Spelled`**, **`Stmt.Spelled`**, **`Statements.Spelled`**,
  **`Program.Spelled`** — the texts that
  spell a tree. They are a grammar of texts, stratified by the three levels of precedence, and a
  printer of trees that leaves all choices open: blanks behind every lexeme, the case of letters,
  redundant parentheses, the line end behind a statement.
-/

namespace OnePass

/-! ## Trees -/

/-- The three levels of precedence, from the loosest to the tightest. -/
inductive Level where
  | expression
  | term
  | factor
  deriving DecidableEq, Repr

/-- The operators that stand between the operands of a level. -/
def Level.admits : Level → Operator → Bool
  | .expression => Operator.isAdditive
  | .term => Operator.isMultiplicative
  | .factor => fun _ => false

/-- The level of the operands that stand between the operators of a level. -/
def Level.operand : Level → Level
  | .expression => .term
  | .term => .factor
  | .factor => .factor

/-- An expression. `zero` is the left operand of a leading sign and is not written. -/
inductive Expr where
  | zero
  | number (digits : String)
  | var (name : String)
  | call (name : String)
  | binary (op : Operator) (lhs rhs : Expr)
  deriving DecidableEq, Repr

inductive Stmt where
  | print (name : String)
  | input (name digits : String)
  | assign (name : String) (value : Expr)
  deriving DecidableEq, Repr

/-! ## What a tree means to a semantics -/

variable {σ α : Type}

/-- Hands the constructs of an expression to a semantics in post-order. -/
def Expr.drive (m : Semantics σ α) : Expr → Action σ α
  | .zero => m.zero
  | .number digits => m.number digits
  | .var name => m.load name
  | .call name => m.call name
  | .binary op lhs rhs => do
    let left ← lhs.drive m
    let held ← m.hold left
    let right ← rhs.drive m
    m.combine op held right

def Stmt.drive (m : Semantics σ α) : Stmt → Action σ Unit
  | .print name => m.print name
  | .input name digits => do
    let value ← m.number digits
    m.assign name value
  | .assign name e => do
    let value ← e.drive m
    m.assign name value

/-- Hands statements to a semantics, one after another. -/
def driveAll (m : Semantics σ α) : List Stmt → Action σ Unit
  | [] => pure ()
  | s :: ss => do
    s.drive m
    driveAll m ss

/-! ## Spellings of expressions -/

def Blanks (w : List Char) : Prop := ∀ c ∈ w, isBlank c = true

/-- A number as it is written: one digit or more. -/
def Digits (ds : List Char) : Prop := ds ≠ [] ∧ ∀ d ∈ ds, d.isDigit = true

instance (w : List Char) : Decidable (Blanks w) :=
  decidable_of_decidable_of_iff (p := w.all isBlank = true) List.all_eq_true

instance (ds : List Char) : Decidable (Digits ds) :=
  decidable_of_decidable_of_iff (p := ds ≠ [] ∧ ds.all Char.isDigit = true)
    (and_congr_right fun _ => List.all_eq_true)

/-- The name that a letter stands for, in either case. -/
def nameOf (c : Char) : String := c.toUpper.toString

/-- A letter is in upper case in its name. -/
theorem isUpper_toUpper {c : Char} (hc : c.isAlpha = true) : c.toUpper.isUpper = true := by
  unfold Char.toUpper
  split
  · next h =>
    simp [Char.isUpper, UInt32.le_iff_toNat_le, UInt32.toNat_add] at h ⊢
    omega
  · grind [Char.isAlpha, Char.isUpper, Char.isLower]

/-- A name is one letter. -/
theorem toList_nameOf (c : Char) : (nameOf c).toList = [c.toUpper] := String.toList_singleton _

/-- The text spells the expression at the level. A construct of a tighter level is also one of the
next looser level; to be one of a tighter level it takes parentheses, which any spelled expression
may have. The left operand of an operator is of the operator's own level, the right one of a tighter
level, so operators of one level associate to the left. A leading sign opens its expression. -/
inductive Expr.Spelled (calls : Bool) : Level → Expr → List Char → Prop where
  | number {ds w : List Char} (hds : Digits ds) (hw : Blanks w) :
      Expr.Spelled calls .factor (.number (String.ofList ds)) (ds ++ w)
  | var {c : Char} {w : List Char} (hc : c.isAlpha = true) (hw : Blanks w) :
      Expr.Spelled calls .factor (.var (nameOf c)) (c :: w)
  | call {c : Char} {u v w : List Char} (hcalls : calls = true) (hc : c.isAlpha = true)
      (hu : Blanks u) (hv : Blanks v) (hw : Blanks w) :
      Expr.Spelled calls .factor (.call (nameOf c)) (c :: (u ++ '(' :: (v ++ ')' :: w)))
  | parens {e : Expr} {s u w : List Char} (he : Expr.Spelled calls .expression e s)
      (hu : Blanks u) (hw : Blanks w) :
      Expr.Spelled calls .factor e ('(' :: (u ++ (s ++ ')' :: w)))
  | term {e : Expr} {s : List Char} (he : Expr.Spelled calls .factor e s) :
      Expr.Spelled calls .term e s
  | expression {e : Expr} {s : List Char} (he : Expr.Spelled calls .term e s) :
      Expr.Spelled calls .expression e s
  | binary {level : Level} {op : Operator} {l r : Expr} {s t w : List Char}
      (hop : level.admits op = true) (hl : Expr.Spelled calls level l s)
      (hr : Expr.Spelled calls level.operand r t) (hw : Blanks w) :
      Expr.Spelled calls level (.binary op l r) (s ++ op.toChar :: (w ++ t))
  | signed {op : Operator} {r : Expr} {t w : List Char} (hop : op.isAdditive = true)
      (hr : Expr.Spelled calls .term r t) (hw : Blanks w) :
      Expr.Spelled calls .expression (.binary op .zero r) (op.toChar :: (w ++ t))

/-! ## Spellings of programs -/

inductive Stmt.Spelled (calls : Bool) : Stmt → List Char → Prop where
  | print {c : Char} {u w : List Char} (hc : c.isAlpha = true) (hu : Blanks u) (hw : Blanks w) :
      Stmt.Spelled calls (.print (nameOf c)) ('!' :: (u ++ c :: w))
  | input {c : Char} {ds u v w : List Char} (hc : c.isAlpha = true) (hds : Digits ds)
      (hu : Blanks u) (hv : Blanks v) (hw : Blanks w) :
      Stmt.Spelled calls (.input (nameOf c) (String.ofList ds))
        ('?' :: (u ++ c :: (v ++ (ds ++ w))))
  | assign {c : Char} {e : Expr} {s u v : List Char} (hc : c.isAlpha = true) (hu : Blanks u)
      (hv : Blanks v) (he : Expr.Spelled calls .expression e s) :
      Stmt.Spelled calls (.assign (nameOf c) e) (c :: (u ++ '=' :: (v ++ s)))

/-- What may stand behind a statement: nothing, or one line end and the blanks behind it. -/
inductive LineEnd : List Char → Prop where
  | none : LineEnd []
  | cr {w : List Char} (hw : Blanks w) : LineEnd ('\r' :: w)
  | lf {w : List Char} (hw : Blanks w) : LineEnd ('\n' :: w)
  | crlf {w : List Char} (hw : Blanks w) : LineEnd ('\r' :: '\n' :: w)

/-- The text spells the statements, of which there is at least one, each with at most one line end
behind it. -/
inductive Statements.Spelled (calls : Bool) : List Stmt → List Char → Prop where
  | last {s : Stmt} {t e : List Char} (hs : s.Spelled calls t) (he : LineEnd e) :
      Statements.Spelled calls [s] (t ++ e)
  | cons {s : Stmt} {ss : List Stmt} {t e u : List Char} (hs : s.Spelled calls t) (he : LineEnd e)
      (hss : Statements.Spelled calls ss u) :
      Statements.Spelled calls (s :: ss) (t ++ (e ++ u))

/-- The text spells the program, up to the `;` that ends it: blanks and the statements. -/
def Program.Spelled (calls : Bool) (program : List Stmt) (p : List Char) : Prop :=
  ∃ w t, Blanks w ∧ Statements.Spelled calls program t ∧ p = w ++ t

/-! ## Calls

What is spelled in the language without calls is spelled in the one with them. -/

/-- An expression without a call is one in either language. -/
theorem Expr.Spelled.of_false {level : Level} {e : Expr} {s : List Char}
    (h : Expr.Spelled false level e s) (calls : Bool) : Expr.Spelled calls level e s := by
  induction h with
  | number hds hw => exact .number hds hw
  | var hc hw => exact .var hc hw
  -- there are no calls
  | call hcalls => exact absurd hcalls Bool.false_ne_true
  | parens he hu hw ih => exact .parens ih hu hw
  | term he ih => exact .term ih
  | expression he ih => exact .expression ih
  | binary hop hl hr hw ihl ihr => exact .binary hop ihl ihr hw
  | signed hop hr hw ih => exact .signed hop ih hw

/-- The same for a statement. -/
theorem Stmt.Spelled.of_false {statement : Stmt} {s : List Char}
    (h : Stmt.Spelled false statement s) (calls : Bool) : Stmt.Spelled calls statement s := by
  cases h with
  | print hc hu hw => exact .print hc hu hw
  | input hc hds hu hv hw => exact .input hc hds hu hv hw
  | assign hc hu hv he => exact .assign hc hu hv (he.of_false calls)

/-- The same for statements. -/
theorem Statements.Spelled.of_false {statements : List Stmt} {s : List Char}
    (h : Statements.Spelled false statements s) (calls : Bool) :
    Statements.Spelled calls statements s := by
  induction h with
  | last hs he => exact .last (hs.of_false calls) he
  | cons hs he hss ih => exact .cons (hs.of_false calls) he ih

theorem Program.Spelled.of_false {program : List Stmt} {p : List Char}
    (h : Program.Spelled false program p) (calls : Bool) : Program.Spelled calls program p := by
  obtain ⟨w, t, hw, ht, rfl⟩ := h
  exact ⟨w, t, hw, ht.of_false calls, rfl⟩

/-! ## How spellings begin -/

/-- The characters that a factor begins with. -/
def beginsFactor (x : Char) : Bool := x.isDigit || x.isAlpha || x = '('

/-- A spelling begins like a factor or, if it spells an expression, with a sign. -/
theorem Expr.Spelled.exists_cons {calls : Bool} {level : Level} {e : Expr} {s : List Char}
    (h : Expr.Spelled calls level e s) :
    ∃ x t, s = x :: t ∧ (beginsFactor x = true ∨
      level = .expression ∧ ∃ op : Operator, op.isAdditive = true ∧ x = op.toChar) := by
  induction h with
  | @number ds w hds hw =>
    obtain ⟨d, ds, rfl⟩ := List.exists_cons_of_ne_nil hds.1
    refine ⟨d, ds ++ w, rfl, Or.inl ?_⟩
    rw [beginsFactor, hds.2 d List.mem_cons_self]
    rfl
  | @var c w hc hw => exact ⟨c, w, rfl, Or.inl (by simp [beginsFactor, hc])⟩
  | @call c u v w hcalls hc hu hv hw => exact ⟨c, _, rfl, Or.inl (by simp [beginsFactor, hc])⟩
  | parens he hu hw => exact ⟨'(', _, rfl, Or.inl rfl⟩
  | term he ih =>
    obtain ⟨x, t, hs, hx | ⟨hlevel, hx⟩⟩ := ih
    · exact ⟨x, t, hs, Or.inl hx⟩
    · cases hlevel
  | expression he ih =>
    obtain ⟨x, t, hs, hx | ⟨hlevel, hx⟩⟩ := ih
    · exact ⟨x, t, hs, Or.inl hx⟩
    · cases hlevel
  | binary hop hl hr hw ihl ihr =>
    -- an operator stands behind its left operand, so a spelling begins like this one
    obtain ⟨x, t, rfl, hx⟩ := ihl
    exact ⟨x, _, rfl, hx⟩
  | @signed op r t w hop hr hw ih => exact ⟨op.toChar, w ++ t, rfl, Or.inr ⟨rfl, op, hop, rfl⟩⟩

/-- The characters that a statement begins with. -/
def beginsStatement (x : Char) : Bool := x = '!' || x = '?' || x.isAlpha

/-- A statement begins with its sign or with the name that it assigns. -/
theorem Stmt.Spelled.exists_cons {calls : Bool} {statement : Stmt} {s : List Char}
    (h : Stmt.Spelled calls statement s) : ∃ x t, s = x :: t ∧ beginsStatement x = true := by
  cases h with
  | print hc hu hw => exact ⟨'!', _, rfl, rfl⟩
  | input hc hds hu hv hw => exact ⟨'?', _, rfl, rfl⟩
  | @assign c e s u v hc hu hv he => exact ⟨c, _, rfl, by simp [beginsStatement, hc]⟩

/-- Statements begin like a statement, as there is at least one. -/
theorem Statements.Spelled.exists_cons {calls : Bool} {statements : List Stmt} {s : List Char}
    (h : Statements.Spelled calls statements s) :
    ∃ x t, s = x :: t ∧ beginsStatement x = true := by
  cases h with
  | last hs he =>
    obtain ⟨x, t, rfl, hx⟩ := hs.exists_cons
    exact ⟨x, _, rfl, hx⟩
  | cons hs he hss =>
    obtain ⟨x, t, rfl, hx⟩ := hs.exists_cons
    exact ⟨x, _, rfl, hx⟩

end OnePass
