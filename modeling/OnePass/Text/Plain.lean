/-!
# Plain text

A text can hold *control sequences*, which a screen obeys and does not show. They begin with an
escape character, and the characters behind it say where they end. The *plain* text is what is left
without them and without the other control characters.
-/

namespace OnePass.Text

/-! ## Kinds of characters -/

/-- Characters in the middle of a sequence. -/
def isMiddle (c : Char) : Bool := ' ' ≤ c ∧ c ≤ '/'

/-- Characters for the parameters of a sequence. -/
def isParameter (c : Char) : Bool := '0' ≤ c ∧ c ≤ '?'

/-- Characters that end a sequence. -/
def isFinal (c : Char) : Bool := '@' ≤ c ∧ c ≤ '~'

/-- White space that is kept. A vertical tab is not. -/
def isKeptSpace (c : Char) : Bool := c ∈ [' ', '\t', '\n', '\x0c', '\r']

/-- Characters that can be shown. -/
def isShown (c : Char) : Bool := isKeptSpace c ∨ ' ' ≤ c ∧ c ≤ '~' ∨ '\x80' ≤ c

/-- Characters with the string terminator of eight-bit sequences among the bytes of their
encoding. -/
def holdsTerminator (c : Char) : Bool := 0x9c ∈ String.utf8EncodeChar c

/-! ## Sequences -/

/-- Where a character stands. -/
inductive Standing where
  /-- In no sequence. -/
  | free
  /-- Behind an escape character. -/
  | escape
  /-- Behind an escape character and middle characters. -/
  | escapeMiddle
  /-- In a sequence with parameters. -/
  | control
  /-- In a command to the system, which a bell ends. -/
  | command
  /-- At the head of a string for a device. -/
  | deviceHead
  /-- Behind parameters of a string for a device. -/
  | deviceParameters
  /-- Behind parameters and middle characters of a string for a device. -/
  | deviceMiddle
  /-- In a string, which the string terminator ends. -/
  | string
  deriving DecidableEq, Repr

namespace Standing

/-- Whether a character is shown where it stands. White space is shown even in a short sequence. -/
def shows : Standing → Char → Bool
  | free, c => isShown c
  | escape, c | escapeMiddle, c | control, c => isKeptSpace c ∧ c ≠ ' '
  | command, _ | deviceHead, _ | deviceParameters, _ | deviceMiddle, _ | string, _ => false

/-- Where the next character stands. An escape character begins a sequence anywhere, and a
cancelling character ends any. -/
def next (standing : Standing) (c : Char) : Standing :=
  if c = '\x1b' then escape
  else if c = '\x18' ∨ c = '\x1a' then free
  else
    match standing with
    | free => free
    | escape =>
      if isMiddle c then escapeMiddle
      else if c = '[' then control
      else if c = ']' then command
      else if c = 'P' then deviceHead
      else if c ∈ ['X', '^', '_'] then string
      else if isParameter c ∨ isFinal c then free
      else escape
    | escapeMiddle => if isParameter c ∨ isFinal c then free else escapeMiddle
    | control => if isFinal c then free else control
    | command => if c = '\x07' then free else command
    | deviceHead =>
      if isMiddle c then deviceMiddle
      else if isParameter c then deviceParameters
      else if isFinal c then string
      else deviceHead
    | deviceParameters =>
      if isMiddle c then deviceMiddle
      else if isFinal c ∨ '<' ≤ c ∧ c ≤ '?' then string
      else deviceParameters
    | deviceMiddle => if isParameter c ∨ isFinal c then string else deviceMiddle
    | string => if holdsTerminator c then free else string

end Standing

/-! ## Texts -/

/-- The characters that are shown. Once one is shown, all behind it are, up to the next that cannot
be shown, and only there the sequence that was open goes on. -/
def shownFrom (standing : Standing) (showing : Bool) : List Char → List Char
  | [] => []
  | c :: text =>
    if showing ∧ isShown c then
      c :: shownFrom (if '\x80' ≤ c then .free else standing) true text
    else if standing.shows c then c :: shownFrom (standing.next c) true text
    else shownFrom (standing.next c) false text

/-- A text without its control sequences and control characters. -/
def plain (text : String) : String := String.ofList (shownFrom .free false text.toList)

end OnePass.Text
