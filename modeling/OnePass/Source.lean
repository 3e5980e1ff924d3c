/-!
# Sources of characters

A *source* supplies the characters of a program one at a time. It is read *on demand*: `next` hands
over one character and counts the request, and a further line is asked for only when a character is
wanted and none is at hand. So the two counters say what a reader has cost: `requests` characters
have been requested and further text has been `asked` for that many times.

What remains to be supplied is `toList`. `next` takes its first character (`next_fst`) and leaves
the rest (`toList_next`), however the text is cut into lines.
-/

namespace OnePass

/-- A supply of characters and the count of what has been requested of it. -/
structure Source where
  ready : List Char
  /-- The lines not asked for yet, without the line feed that ends each of them. -/
  later : List (List Char) := []
  /-- How many characters were requested, counting the requests that met the end. -/
  requests : Nat := 0
  /-- How many times further text was asked for, counting the times that there was none. -/
  asked : Nat := 0
  deriving DecidableEq, Repr

namespace Source

/-- A text that is at hand as a whole. -/
def ofText (text : String) : Source where
  ready := text.toList

/-- Lines that are delivered one by one, each with a line feed. -/
def ofLines (lines : List String) : Source where
  ready := []
  later := lines.map String.toList

/-- A line as it is supplied, with its line feed. -/
def delivered (line : List Char) : List Char := line ++ ['\n']

/-- All characters that are still to be supplied. -/
def toList (source : Source) : List Char :=
  source.ready ++ source.later.flatMap delivered

/-- Hands over the next character, or nothing at the end. -/
def next (source : Source) : Option Char × Source :=
  match source.ready, source.later with
  | c :: rest, _ => (some c, { source with ready := rest, requests := source.requests + 1 })
  | [], [] => (none, { source with requests := source.requests + 1, asked := source.asked + 1 })
  | [], line :: lines =>
    ((delivered line).head?,
      { ready := (delivered line).tail
        later := lines
        requests := source.requests + 1
        asked := source.asked + 1 })

/-! ## What a request does -/

/-- A text supplies its characters. -/
@[simp] theorem toList_ofText (text : String) : (ofText text).toList = text.toList := by
  simp [ofText, toList]

/-- Lines supply their characters with a line feed behind each line. -/
@[simp] theorem toList_ofLines (lines : List String) :
    (ofLines lines).toList = lines.flatMap fun line => line.toList ++ ['\n'] := by
  simp [ofLines, toList, delivered, List.flatMap_map]

/-- The character handed over is the first of those still to be supplied. -/
theorem next_fst (source : Source) : source.next.1 = source.toList.head? := by
  unfold next toList
  split <;> simp_all [delivered]

/-- A request takes the first character and no other. -/
theorem toList_next (source : Source) : source.next.2.toList = source.toList.tail := by
  unfold next toList
  split
  · simp_all
  · simp_all
  · -- where nothing is at hand, a further line is asked for, and its line feed makes it a nonempty
    -- one
    next line lines hready hlater =>
    cases line <;> simp_all [delivered]

@[simp] theorem requests_next (source : Source) : source.next.2.requests = source.requests + 1 := by
  unfold next
  split <;> rfl

end Source

end OnePass
