import OnePass.Proofs.Reading.Glyphs
import OnePass.Proofs.Reading.Simulation
import OnePass.Proofs.Reading.Texts
import OnePass.Proofs.Steps

/-!
# What a cursor knows of its place

A cursor may be moved by one character, over the blanks, or by a lexeme (`Move`), in any order,
also when a lexeme was missing and when the text has ended. At every time it knows where it stands
in the text (`Cursor.StandsIn`): the character at hand is the one at its offset, the source has
those behind it, and one character more has been requested than consumed.

An advance keeps that (`Cursor.StandsIn.advance`), and every move reads on by advances
(`Move.reads`), so all moves keep it (`moves_keep_place`). A lexeme that is missing leaves the
cursor alone (`Move.of_error`), and one that is not leaves no blank at hand (`Move.ready`).
-/

namespace OnePass

/-! ## Places in a text -/

/-- The cursor stands in the text at its offset. Nothing has been requested but what is consumed and
at hand, and the end of the text at most once. -/
structure Cursor.StandsIn (text : List Char) (c : Cursor) : Prop where
  offset_le : c.offset ≤ text.length
  look : c.look = text[c.offset]?
  source : c.source =
    { ready := text.drop (c.offset + 1)
      requests := c.offset + 1
      asked := if c.offset = text.length then 1 else 0 }

namespace Cursor.StandsIn

variable {text : List Char} {c c' : Cursor}

/-- No character is at hand exactly at the end of the text. -/
theorem look_eq_none_iff (h : c.StandsIn text) : c.look = none ↔ c.offset = text.length := by
  have hle := h.offset_le
  rw [h.look, List.getElem?_eq_none_iff]
  omega

/-- The column that a fault is given counts the character at hand, which the end has not. -/
theorem column (h : c.StandsIn text) :
    c.column = ⟨c.offset, if c.offset = text.length then c.offset else c.offset + 1⟩ := by
  cases hlook : c.look with
  | none => rw [Cursor.column, hlook, if_pos (h.look_eq_none_iff.1 hlook)]
  | some x =>
    have hlt : c.offset ≠ text.length := by
      intro heq
      rw [h.look_eq_none_iff.2 heq] at hlook
      cases hlook
    rw [Cursor.column, hlook, if_neg hlt]

/-- Before any blank is skipped, the cursor stands on the first character, or at the end of an empty
text. -/
theorem first (src : String) : (Cursor.first (.ofText src)).StandsIn src.toList := by
  unfold Cursor.first Source.ofText Source.next
  cases src.toList with
  | nil => exact ⟨Nat.le_refl _, rfl, rfl⟩
  | cons x rest => exact ⟨Nat.zero_le _, rfl, rfl⟩

/-- An advance goes on to the next character, and nowhere from the end. -/
theorem advance (h : c.StandsIn text) : c.advance.StandsIn text := by
  cases hlook : c.look with
  | none =>
    rw [Cursor.advance, hlook]
    exact h
  | some x =>
    -- there is a character at the offset, so the next place is in the text or at its end
    have hlt : c.offset < text.length := (List.getElem?_eq_some_iff.1 (h.look ▸ hlook)).1
    have hnext : c.source.next = _ := congrArg Source.next h.source
    rw [Cursor.advance, hlook]
    simp only [hnext]
    -- the source has a next character unless the cursor stood on the last one
    cases hrest : text.drop (c.offset + 1) with
    | nil =>
      have hlast : c.offset + 1 = text.length := by
        have hlength := List.drop_eq_nil_iff.1 hrest
        omega
      refine ⟨hlt, ?_, ?_⟩
      · simp [Source.next, hlast]
      · simp [Source.next, hlast, Nat.ne_of_lt hlt]
    | cons y rest =>
      have hlast : c.offset + 1 ≠ text.length := by
        intro heq
        rw [heq, List.drop_length] at hrest
        cases hrest
      have hbehind : text.drop (c.offset + 1 + 1) = rest := by
        rw [← List.drop_drop, hrest, List.drop_one, List.tail_cons]
      refine ⟨hlt, ?_, ?_⟩
      · show some y = text[c.offset + 1]?
        rw [← List.head?_drop, hrest, List.head?_cons]
      · simp [Source.next, hbehind, hlast, Nat.ne_of_lt hlt]

theorem skip (h : c.StandsIn text) (n : Nat) : (c.skip n).StandsIn text := by
  induction n generalizing c with
  | zero => exact h
  | succ n ih => exact ih h.advance

/-- To read on is to advance, character by character. -/
theorem of_reads {t : List Char} (h : c.StandsIn text) (hreads : c.Reads t c') :
    c'.StandsIn text := by
  rw [hreads.eq_skip]
  exact h.skip _

end Cursor.StandsIn

/-- The offset counts the characters that are read. -/
theorem Cursor.Reads.offset_eq {c c' : Cursor} {t : List Char} (h : c.Reads t c') :
    c'.offset = c.offset + t.length := by
  have hlength : t.length ≤ c.unread.length := by
    rw [h.unread, List.length_append]
    exact Nat.le_add_right _ _
  rw [h.eq_skip, (Cursor.offset_skip hlength).1]

/-- Which fault it is to blame the character at hand depends on whether there is one. -/
theorem Cursor.cause_missing (c : Cursor) (what : String) :
    ((∃ w, (c.missing what).cause = .endOfInput w) ↔ c.look = none) ∧
      ((∃ w, (c.missing what).cause = .expected w) ↔ c.look ≠ none) := by
  cases hlook : c.look <;> simp [Cursor.missing, hlook]

/-! ## Moves -/

/-- What may be asked of a cursor. -/
inductive Move where
  | advance
  | skipBlanks
  | symbol (c : Char)
  | letter
  | digits
  | lineEnd
  deriving DecidableEq, Repr

/-- What a move answers when it has not failed. -/
inductive Move.Answer where
  | moved
  | text (text : String)
  | seen (seen : Bool)
  deriving DecidableEq, Repr

namespace Move

def perform : Move → Scan Answer
  | advance => fun c => .ok .moved c.advance
  | skipBlanks => fun c => .ok .moved c.skipBlanks
  | symbol x => (fun _ => .moved) <$> Lexeme.symbol x
  | letter => .text <$> Lexeme.letter
  | digits => .text <$> Lexeme.digits
  | lineEnd => .seen <$> Lexeme.lineEnd

/-- The cursor after some moves, whether they failed or not. -/
def performAll (moves : List Move) (c : Cursor) : Cursor :=
  moves.foldl (fun c move => Action.ended (move.perform c)) c

/-- A move reads some of the text. -/
theorem reads (move : Move) (c : Cursor) : ∃ t, c.Reads t (Action.ended (move.perform c)) := by
  cases move with
  | advance =>
    cases hlook : c.look with
    | none =>
      refine ⟨[], ?_⟩
      show c.Reads [] c.advance
      rw [Cursor.advance, hlook]
      exact .refl c
    | some x => exact ⟨[x], Cursor.reads_advance hlook⟩
  | skipBlanks =>
    obtain ⟨w, -, hreads⟩ := reads_skipBlanks c
    exact ⟨w, hreads⟩
  | symbol x =>
    rw [perform, Action.ended_map]
    exact Lexeme.readsOn_symbol x c
  | letter =>
    rw [perform, Action.ended_map]
    exact Lexeme.readsOn_letter c
  | digits =>
    rw [perform, Action.ended_map]
    exact Lexeme.readsOn_digits c
  | lineEnd =>
    rw [perform, Action.ended_map]
    exact Lexeme.readsOn_lineEnd c

/-- A lexeme decides at the cursor, so where it fails it has not moved it. -/
theorem missing_of_error {β : Type} {lexeme : Scan β} {c c' : Cursor} {fault : Fault}
    (hdecides : Decides lexeme c) (h : lexeme c = .error fault c') :
    c' = c ∧ ∃ what, fault = c.missing what := by
  rcases hdecides with ⟨b, n, -, hok⟩ | ⟨what, hmissing⟩
  · rw [hok c (.refl n c)] at h
    cases h
  · rw [hmissing c (.refl 0 c)] at h
    cases h
    exact ⟨rfl, what, rfl⟩

/-- A lexeme that is missing leaves the cursor alone, and the character at hand is blamed. -/
theorem of_error {move : Move} {c c' : Cursor} {fault : Fault}
    (h : move.perform c = .error fault c') : c' = c ∧ ∃ what, fault = c.missing what := by
  cases move with
  | advance => cases h
  | skipBlanks => cases h
  | symbol x => exact missing_of_error (Lexeme.decides_symbol x c) (Action.map_eq_error h)
  | letter => exact missing_of_error (Lexeme.decides_letter c) (Action.map_eq_error h)
  | digits => exact missing_of_error (Lexeme.decides_digits c) (Action.map_eq_error h)
  | lineEnd => exact missing_of_error (Lexeme.decides_lineEnd c) (Action.map_eq_error h)

/-- A line end that is not there leaves the cursor alone. -/
theorem of_not_seen {move : Move} {c c' : Cursor} (h : move.perform c = .ok (.seen false) c') :
    c' = c := by
  cases move with
  | advance => cases h
  | skipBlanks => cases h
  | symbol x => obtain ⟨_, -, ⟨⟩⟩ := Action.map_eq_ok h
  | letter => obtain ⟨_, -, ⟨⟩⟩ := Action.map_eq_ok h
  | digits => obtain ⟨_, -, ⟨⟩⟩ := Action.map_eq_ok h
  | lineEnd =>
    obtain ⟨_, hlexeme, ⟨⟩⟩ := Action.map_eq_ok h
    exact Lexeme.eq_of_lineEnd_false hlexeme

/-- Where there was no blank at hand, no move but an advance leaves one there. -/
theorem ready {move : Move} (hmove : move ≠ .advance) {c : Cursor} (hc : c.Ready) :
    (Action.ended (move.perform c)).Ready := by
  cases move with
  | advance => exact absurd rfl hmove
  | skipBlanks => exact Cursor.ready_skipBlanks c
  | symbol x =>
    rw [perform, Action.ended_map]
    -- blanks are skipped behind whatever is found, and a failure moves nothing
    unfold Lexeme.symbol
    split
    · exact Cursor.ready_skipBlanks _
    · exact hc
  | letter =>
    rw [perform, Action.ended_map]
    unfold Lexeme.letter
    split
    · exact Cursor.ready_skipBlanks _
    · exact hc
  | digits =>
    rw [perform, Action.ended_map]
    unfold Lexeme.digits
    split
    · exact hc
    · exact Cursor.ready_skipBlanks _
  | lineEnd =>
    rw [perform, Action.ended_map]
    unfold Lexeme.lineEnd
    split
    · exact Cursor.ready_skipBlanks _
    · exact Cursor.ready_skipBlanks _
    · exact hc

end Move

/-! ## All moves -/

/-- What is read by one move after another keeps the place, whether the moves fail or not. -/
theorem Cursor.StandsIn.performAll {text : List Char} {c : Cursor} (h : c.StandsIn text)
    (moves : List Move) : (Move.performAll moves c).StandsIn text := by
  induction moves generalizing c with
  | nil => exact h
  | cons move moves ih =>
    obtain ⟨t, hreads⟩ := move.reads c
    exact ih (h.of_reads hreads)

/-- A parser starts behind the blanks that the text begins with. -/
theorem Cursor.StandsIn.start (src : String) :
    (Cursor.start (.ofText src)).StandsIn src.toList := by
  obtain ⟨w, -, hreads⟩ := reads_skipBlanks (Cursor.first (.ofText src))
  rw [Cursor.start_eq]
  exact (Cursor.StandsIn.first src).of_reads hreads

/-- However a cursor has been moved in a text, it knows its place: the offset, the character at
hand, those to come and the requests fit each other. A further move never goes back. If it fails, or
finds no line end, it changes nothing, and the fault is that of the place. No move but an advance
leaves a blank at hand where none was. -/
theorem moves_keep_place (src : String) (moves : List Move) :
    let c := Move.performAll moves (.start (.ofText src))
    let k := c.offset
    (k ≤ src.toList.length ∧ c.look = src.toList[k]? ∧
      (c.look = none ↔ k = src.toList.length) ∧
      c.source.ready = src.toList.drop (k + 1) ∧ c.source.later = [] ∧
      c.source.requests = k + 1 ∧ c.source.asked = (if k = src.toList.length then 1 else 0) ∧
      c.column = ⟨k, if k = src.toList.length then k else k + 1⟩) ∧
    ∀ move : Move,
      k ≤ (Action.ended (move.perform c)).offset ∧
      (∀ fault c', move.perform c = .error fault c' →
        c' = c ∧ fault.column = c.column ∧
          ((∃ what, fault.cause = .endOfInput what) ↔ c.look = none) ∧
          ((∃ what, fault.cause = .expected what) ↔ c.look ≠ none)) ∧
      (∀ c', move.perform c = .ok (.seen false) c' → c' = c) ∧
      (move ≠ .advance → (∀ x ∈ c.look, isBlank x = false) →
        ∀ x ∈ (Action.ended (move.perform c)).look, isBlank x = false) := by
  intro c k
  have hc : c.StandsIn src.toList := (Cursor.StandsIn.start src).performAll moves
  refine ⟨⟨hc.offset_le, hc.look, hc.look_eq_none_iff, ?_, ?_, ?_, ?_, hc.column⟩, fun move => ?_⟩
  · rw [hc.source]
  · rw [hc.source]
  · rw [hc.source]
  · rw [hc.source]
  · -- what a further move does, taken from the lemmas on a single one
    obtain ⟨t, hreads⟩ := move.reads c
    have hoffset := hreads.offset_eq
    refine ⟨by omega, fun fault c' h => ?_, fun c' h => Move.of_not_seen h, ?_⟩
    · obtain ⟨rfl, what, rfl⟩ := Move.of_error h
      exact ⟨rfl, rfl, c.cause_missing what⟩
    · intro hmove hblank
      rw [Cursor.look_eq_head?] at hblank ⊢
      exact Move.ready hmove hblank

/-- Blanks, two carriage returns and a missing parenthesis before the end of a text, where a number
is missing as well. -/
theorem moves_keep_place_end :
    let c : Cursor := ⟨none, 5, ⟨[], [], 6, 1⟩⟩
    Move.performAll [.letter, .lineEnd, .symbol '(', .lineEnd, .advance]
        (.start (.ofText " a\r \r")) = c ∧
      Move.digits.perform c = .error ⟨.endOfInput "Integer", ⟨5, 5⟩⟩ c ∧
      Move.lineEnd.perform c = .ok (.seen false) c ∧ Move.letter ≠ .advance ∧
      c.column = ⟨5, 5⟩ ∧ (c.look = none ↔ c.offset = " a\r \r".toList.length) ∧
      (Action.ended (Move.digits.perform c)) = c ∧
      ∀ x ∈ (Action.ended (Move.letter.perform c)).look, isBlank x = false := by
  intro c
  have hc : Move.performAll [.letter, .lineEnd, .symbol '(', .lineEnd, .advance]
      (.start (.ofText " a\r \r")) = c := by decide +kernel
  have hdigits : Move.digits.perform ⟨none, 5, ⟨[], [], 6, 1⟩⟩ =
      .error ⟨.endOfInput "Integer", ⟨5, 5⟩⟩ ⟨none, 5, ⟨[], [], 6, 1⟩⟩ := by
    rw [Move.perform, Action.map_apply, Lexeme.digits, Cursor.takeWhile]
    rfl
  have hlineEnd : Move.lineEnd.perform ⟨none, 5, ⟨[], [], 6, 1⟩⟩ =
      .ok (.seen false) ⟨none, 5, ⟨[], [], 6, 1⟩⟩ := rfl
  -- the place after the moves, from the general statement
  have hplace := moves_keep_place " a\r \r" [.letter, .lineEnd, .symbol '(', .lineEnd, .advance]
  dsimp only at hplace
  rw [hc] at hplace
  obtain ⟨⟨-, -, hlook, -, -, -, -, hcolumn⟩, hmove⟩ := hplace
  have hletter : Move.letter ≠ .advance := by decide
  have hblank : ∀ x ∈ (none : Option Char), isBlank x = false := by simp
  refine ⟨hc, hdigits, hlineEnd, hletter, hcolumn, hlook, ?_, (hmove .letter).2.2.2 hletter hblank⟩
  rw [hdigits]
  exact ((hmove .digits).2.1 _ _ hdigits).1

end OnePass
