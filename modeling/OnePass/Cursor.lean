import OnePass.Fault
import OnePass.Operator
import OnePass.Source

/-!
# The cursor: one character of lookahead

A *cursor* stands on one character of a source, the only one it holds: `look`. Moving on requests
the next one. At the end of the text the cursor stands on nothing, and moving on changes nothing and
requests nothing.

What the cursor has not consumed yet, the lookahead included, is `unread`. The lookahead is its
first character (`look_eq_head?`), `advance` removes that character (`unread_advance`), and
`takeWhile` splits it as `List.takeWhile` and `List.dropWhile` do (`takeWhile_fst`,
`unread_takeWhile`).
-/

namespace OnePass

/-- A space or a tab. Line ends are not blank: they may end a statement. -/
def isBlank (c : Char) : Bool := c = ' ' || c = '\t'

/-- A position in a source, with the one character that stands there. -/
structure Cursor where
  /-- The character at hand, or nothing at the end of the text. -/
  look : Option Char
  /-- How many characters were consumed before it. -/
  offset : Nat := 0
  source : Source
  deriving DecidableEq, Repr

namespace Cursor

/-- The characters not consumed yet, beginning with the one at hand. -/
def unread (cursor : Cursor) : List Char :=
  match cursor.look with
  | none => []
  | some c => c :: cursor.source.toList

/-- Consumes the character at hand and requests the next one. -/
def advance (cursor : Cursor) : Cursor :=
  match cursor.look with
  | none => cursor
  | some _ =>
    let (look, source) := cursor.source.next
    { look, source, offset := cursor.offset + 1 }

/-! ## What an advance does -/

/-- The one character that the cursor holds is the first that is not consumed. -/
theorem look_eq_head? (cursor : Cursor) : cursor.look = cursor.unread.head? := by
  unfold unread
  split <;> simp_all

/-- Moving on consumes one character, and at the end none. -/
@[simp] theorem unread_advance (cursor : Cursor) : cursor.advance.unread = cursor.unread.tail := by
  cases hlook : cursor.look with
  | none => simp [advance, unread, hlook]
  | some c =>
    have hhead := Source.next_fst cursor.source
    have htail := Source.toList_next cursor.source
    simp only [advance, unread, hlook, List.tail_cons]
    -- the lookahead has been taken from the source, so the rest of it is what the source has left
    split
    · next hnone => cases hlist : cursor.source.toList <;> simp_all
    · next d hsome => cases hlist : cursor.source.toList <;> simp_all

/-- The lookahead comes before what an advance leaves. -/
theorem unread_eq_cons {cursor : Cursor} {c : Char} (h : cursor.look = some c) :
    cursor.unread = c :: cursor.advance.unread := by
  rw [unread_advance]
  simp [unread, h]

/-- Where there is a character, moving on leaves fewer of them. Readers recurse on this. -/
theorem length_unread_advance_lt {cursor : Cursor} {c : Char} (h : cursor.look = some c) :
    cursor.advance.unread.length < cursor.unread.length := by
  rw [unread_eq_cons h, List.length_cons]
  exact Nat.lt_succ_self _

/-! ## Runs of characters -/

/-- The longest run of characters with the property `p`, and the cursor behind it. -/
def takeWhile (p : Char → Bool) (cursor : Cursor) : List Char × Cursor :=
  match _h : cursor.look with
  | none => ([], cursor)
  | some c =>
    if p c then
      let (run, behind) := cursor.advance.takeWhile p
      (c :: run, behind)
    else ([], cursor)
  termination_by cursor.unread.length
  decreasing_by exact length_unread_advance_lt _h

/-- The cursor behind the blanks at hand. -/
def skipBlanks (cursor : Cursor) : Cursor := (cursor.takeWhile isBlank).2

/-- What is read is the longest run of such characters. -/
theorem takeWhile_fst (p : Char → Bool) (cursor : Cursor) :
    (cursor.takeWhile p).1 = cursor.unread.takeWhile p := by
  fun_induction takeWhile p cursor with
  | case1 cursor h => simp [unread, h]
  | case2 cursor c h hc run behind htake ih =>
    rw [unread_eq_cons h, List.takeWhile_cons_of_pos hc, ← ih, htake]
  | case3 cursor c h hc => simp [unread, h, hc]

/-- What is left begins behind that run. -/
theorem unread_takeWhile (p : Char → Bool) (cursor : Cursor) :
    (cursor.takeWhile p).2.unread = cursor.unread.dropWhile p := by
  fun_induction takeWhile p cursor with
  | case1 cursor h => simp [unread, h]
  | case2 cursor c h hc run behind htake ih =>
    rw [unread_eq_cons h, List.dropWhile_cons_of_pos hc, ← ih, htake]
  | case3 cursor c h hc => simp [unread, h, hc]

/-! ## Making and reading a cursor -/

/-- The cursor at the start of a source, behind the blanks there. -/
def start (source : Source) : Cursor :=
  let (look, source) := source.next
  skipBlanks { look, source }

/-- Whether the cursor stands on the character. -/
def isAt (cursor : Cursor) (c : Char) : Bool := cursor.look = some c

/-- Whether a letter is at hand. Letters are those of the ASCII alphabet, in either case. -/
def isAtLetter (cursor : Cursor) : Bool := cursor.look.any Char.isAlpha

/-- The operator that the cursor stands on. -/
def operator? (cursor : Cursor) : Option Operator := cursor.look.bind Operator.ofChar?

def isAtAdditive (cursor : Cursor) : Bool := cursor.operator?.any Operator.isAdditive

def isAtMultiplicative (cursor : Cursor) : Bool := cursor.operator?.any Operator.isMultiplicative

/-- The column of the character at hand; it is empty at the end of the text. -/
def column (cursor : Cursor) : Column :=
  match cursor.look with
  | some _ => ⟨cursor.offset, cursor.offset + 1⟩
  | none => ⟨cursor.offset, cursor.offset⟩

/-- The fault that blames the character at hand for the absence of `what`. -/
def missing (cursor : Cursor) (what : String) : Fault where
  cause :=
    match cursor.look with
    | some _ => .expected what
    | none => .endOfInput what
  column := cursor.column

end Cursor

end OnePass
