import OnePass.Semantics
import OnePass.Lexeme

/-!
# The grammar

```text
program    = statement [line end] { statement [line end] } before ";"
statement  = "!" name | "?" name number | assignment
assignment = name "=" expression
expression = [sign] term { ("+" | "-") term }
term       = factor { ("*" | "/") factor }
factor     = "(" expression ")" | name | name "(" ")" | number
```

Each production is a parser that decides by the one character at hand and hands what it recognises
to a semantics at once. The `;` that ends a program is looked for between statements only and is not
consumed, so nothing behind it is ever requested. `name "(" ")"` is in the language only where the
semantics has calls.

A parser that fails leaves the cursor and the state of the semantics where they stand; a later call
goes on from there.

Every production consumes what it recognises, so the number of unread characters bounds the depth of
nesting and the rounds of each loop. The definitions whose names end in `Within` take such a bound
and recurse on it; where the bound is zero the text has ended, and they do what the grammar asks for
at the end of a text. The productions themselves use the number of unread characters as the bound.
-/

namespace OnePass

/-- How far the work on a program has come: where the cursor stands, and the state of the
semantics. -/
structure Progress (σ : Type) where
  cursor : Cursor
  state : σ

def Progress.start {σ : Type} (source : Source) (state : σ) : Progress σ where
  cursor := .start source
  state := state

def Progress.left {σ : Type} (p : Progress σ) : Nat := p.cursor.unread.length

/-- A parser moves a cursor and drives a semantics, also when it fails. -/
abbrev Parser (σ : Type) := EStateM Fault (Progress σ)

namespace Grammar

variable {σ α β : Type}

/-! ## What parsers are made of -/

def cursor : Parser σ Cursor := fun p => .ok p.cursor p

def scan (lexeme : Scan β) : Parser σ β := fun p =>
  match lexeme p.cursor with
  | .ok b cursor => .ok b { p with cursor }
  | .error fault cursor => .error fault { p with cursor }

/-- Performs an action of the semantics, whose state is first told where the cursor stands. -/
def act (m : Clocked σ α) (action : Action σ β) : Parser σ β := fun p =>
  match action (m.tick p.cursor p.state) with
  | .ok b state => .ok b { p with state }
  | .error fault state => .error fault { p with state }

/-- Blames the character at hand for the absence of `what`. -/
def missing (what : String) : Parser σ β := fun p => .error (p.cursor.missing what) p

/-! ## Expressions -/

/-- The loop of a sum or a product: as long as an operator of the level is at hand, the value so far
is put aside, an operand is read and the two are combined. -/
def chainWithin (m : Clocked σ α) (level : Operator → Bool) (operand : Parser σ α) :
    Nat → α → Parser σ α
  | 0, lhs => pure lhs
  | n + 1, lhs => do
    match (← cursor).operator?.filter level with
    | none => pure lhs
    | some op =>
      let held ← act m (m.hold lhs)
      scan (Lexeme.symbol op.toChar)
      let rhs ← operand
      let value ← act m (m.combine op held rhs)
      chainWithin m level operand n value

/-- A term, given how its factors are read. -/
def termWithin (m : Clocked σ α) (factor : Parser σ α) (n : Nat) : Parser σ α := do
  let lhs ← factor
  chainWithin m Operator.isMultiplicative factor n lhs

/-- An expression, given how its factors are read. A leading sign has zero on its left. -/
def expressionWithin (m : Clocked σ α) (factor : Parser σ α) (n : Nat) : Parser σ α := do
  let lhs ← if (← cursor).isAtAdditive then act m m.zero else termWithin m factor n
  chainWithin m Operator.isAdditive (termWithin m factor n) n lhs

/-- A name in an expression: a variable or, where there are calls, a subroutine if `()` follows. -/
def reference (m : Clocked σ α) : Parser σ α := do
  let name ← scan Lexeme.letter
  if m.calls && (← cursor).isAt '(' then
    scan (Lexeme.symbol '(')
    scan (Lexeme.symbol ')')
    act m (m.call name)
  else
    act m (m.load name)

/-- A factor of a text with at most that many unread characters. -/
def factorWithin (m : Clocked σ α) : Nat → Parser σ α
  | 0 => missing "Integer"
  | n + 1 => do
    let here ← cursor
    if here.isAt '(' then
      scan (Lexeme.symbol '(')
      let value ← expressionWithin m (factorWithin m n) n
      scan (Lexeme.symbol ')')
      pure value
    else if here.isAtLetter then
      reference m
    else
      let digits ← scan Lexeme.digits
      act m (m.number digits)

/-- Runs a parser that takes a bound on the number of unread characters. -/
def withBound (parser : Nat → Parser σ β) : Parser σ β := fun p => parser p.left p

def factor (m : Clocked σ α) : Parser σ α := withBound (factorWithin m)

/-- What a term goes on with behind its factors so far, whose value is `lhs`. -/
def termAfter (m : Clocked σ α) (lhs : α) : Parser σ α :=
  withBound fun n => chainWithin m Operator.isMultiplicative (factorWithin m n) n lhs

/-- Factors with `*` and `/` between them, combined from the left. -/
def term (m : Clocked σ α) : Parser σ α :=
  withBound fun n => termWithin m (factorWithin m n) n

/-- What an expression goes on with behind its terms so far, whose value is `lhs`. -/
def expressionAfter (m : Clocked σ α) (lhs : α) : Parser σ α :=
  withBound fun n =>
    chainWithin m Operator.isAdditive (termWithin m (factorWithin m n) n) n lhs

/-- Terms with `+` and `-` between them, combined from the left; the first may have a sign. -/
def expression (m : Clocked σ α) : Parser σ α :=
  withBound fun n => expressionWithin m (factorWithin m n) n

/-! ## Statements -/

/-- An assignment of a text with at most that many unread characters. -/
def assignmentWithin (m : Clocked σ α) (n : Nat) : Parser σ Unit := do
  let name ← scan Lexeme.letter
  scan (Lexeme.symbol '=')
  let value ← expressionWithin m (factorWithin m n) n
  act m (m.assign name value)

/-- `! name` shows a variable. -/
def output (m : Clocked σ α) : Parser σ Unit := do
  scan (Lexeme.symbol '!')
  let name ← scan Lexeme.letter
  act m (m.print name)

/-- `? name number` gives a variable the value of a literal. -/
def input (m : Clocked σ α) : Parser σ Unit := do
  scan (Lexeme.symbol '?')
  let name ← scan Lexeme.letter
  let digits ← scan Lexeme.digits
  let value ← act m (m.number digits)
  act m (m.assign name value)

/-- A statement of a text with at most that many unread characters. -/
def statementWithin (m : Clocked σ α) (n : Nat) : Parser σ Unit := do
  let here ← cursor
  if here.isAt '!' then output m
  else if here.isAt '?' then input m
  else assignmentWithin m n

/-- The statements of a text with at most that many unread characters. -/
def programWithin (m : Clocked σ α) : Nat → Parser σ Unit
  | 0 => missing "Name"
  | n + 1 => do
    statementWithin m (n + 1)
    let _ ← scan Lexeme.lineEnd
    unless (← cursor).isAt ';' do
      programWithin m n

/-- `name = expression`. -/
def assignment (m : Clocked σ α) : Parser σ Unit := withBound (assignmentWithin m)

def statement (m : Clocked σ α) : Parser σ Unit := withBound (statementWithin m)

/-- One assignment and the end of its line, which is required. -/
def assignmentLine (m : Clocked σ α) : Parser σ Unit := do
  assignment m
  unless (← scan Lexeme.lineEnd) do
    missing "NewLine"

/-- Statements up to the `;` that ends them. -/
def program (m : Clocked σ α) : Parser σ Unit := withBound (programWithin m)

/-! ## Parts of a program on their own -/

/-- What may be asked for of a text. -/
inductive Goal where
  | program
  | statement
  | assignmentLine
  | expression
  deriving DecidableEq, Repr

/-- Parses a goal. Only an expression has a value. -/
def parse (m : Clocked σ α) : Goal → Parser σ (Option α)
  | .program => (fun _ => none) <$> program m
  | .statement => (fun _ => none) <$> statement m
  | .assignmentLine => (fun _ => none) <$> assignmentLine m
  | .expression => some <$> expression m

/-- Parses a goal and tells how far that went, whether it succeeded or not. -/
def attempt (m : Clocked σ α) (goal : Goal) (p : Progress σ) :
    Except Fault (Option α) × Progress σ :=
  match parse m goal p with
  | .ok value p => (.ok value, p)
  | .error fault p => (.error fault, p)

/-- Parses goals one after another, each from where the one before it stopped. -/
def attempts (m : Clocked σ α) : List Goal → Progress σ →
    List (Except Fault (Option α) × Progress σ)
  | [], _ => []
  | goal :: goals, p =>
    let attempted := attempt m goal p
    attempted :: attempts m goals attempted.2

end Grammar

end OnePass
