import OnePass.Cursor

/-!
# Lexemes

The lexemes of the language: a symbol, a letter, a run of digits, the end of a line. Reading one
also consumes the blanks behind it, so that a cursor which stands on the start of a lexeme does so
again after the next. A lexeme that is missing consumes nothing: the fault blames the character at
hand, and the cursor stays there.
-/

namespace OnePass

/-- A reader of lexemes: it moves a cursor, also when it fails. -/
abbrev Scan := EStateM Fault Cursor

namespace Lexeme

/-- The symbol `c` itself. -/
def symbol (c : Char) : Scan Unit := fun cursor =>
  if cursor.isAt c then .ok () cursor.advance.skipBlanks
  else .error (cursor.missing ("\"" ++ c.toString ++ "\"")) cursor

/-- A name: one letter, which counts as the same name in either case. -/
def letter : Scan String := fun cursor =>
  match cursor.look.filter Char.isAlpha with
  | some c => .ok c.toUpper.toString cursor.advance.skipBlanks
  | none => .error (cursor.missing "Name") cursor

/-- A number: the longest run of digits at hand, as it is written. -/
def digits : Scan String := fun cursor =>
  match cursor.takeWhile Char.isDigit with
  | ([], _) => .error (cursor.missing "Integer") cursor
  | (run, behind) => .ok (String.ofList run) behind.skipBlanks

/-- The end of a line: a carriage return, a line feed, or the first followed by the second. Answers
whether one was there, and never fails. -/
def lineEnd : Scan Bool := fun cursor =>
  match cursor.look with
  | some '\r' =>
    let behind := cursor.advance
    .ok true (if behind.isAt '\n' then behind.advance else behind).skipBlanks
  | some '\n' => .ok true cursor.advance.skipBlanks
  | _ => .ok false cursor

end Lexeme

end OnePass
