import OnePass.Grammar
import OnePass.Proofs.Syntax

/-!
# What the lexemes read

Every move of a cursor is a number of advances, so a position is told by how far it is from another
one: `Cursor.skip`. A lexeme that is spelled by the text at hand is read, and the cursor stands
behind it and the blanks that follow (`symbol_of_spelled`, `letter_of_spelled`, `digits_of_spelled`,
`lineEnd_of_spelled`). Conversely what a lexeme has read spells it (`reads_of_symbol`,
`reads_of_letter`, `reads_of_digits`, `reads_of_lineEnd`).
-/

namespace OnePass

/-- The cursor after so many advances. -/
def Cursor.skip : Nat → Cursor → Cursor
  | 0, c => c
  | n + 1, c => c.advance.skip n

/-- The cursor has read the text `s` and stands at `c'` then. -/
structure Cursor.Reads (c : Cursor) (s : List Char) (c' : Cursor) : Prop where
  unread : c.unread = s ++ c'.unread
  eq_skip : c' = c.skip s.length

namespace Cursor

/-! ## Positions -/

@[simp] theorem skip_zero (c : Cursor) : c.skip 0 = c := rfl

theorem skip_succ (n : Nat) (c : Cursor) : c.skip (n + 1) = c.advance.skip n := rfl

/-- To go on behind some characters is to skip them all. -/
theorem skip_add (n k : Nat) (c : Cursor) : c.skip (n + k) = (c.skip n).skip k := by
  induction n generalizing c with
  | zero => rw [Nat.zero_add, skip_zero]
  | succ n ih => rw [Nat.succ_add, skip_succ, skip_succ, ih]

/-- What is unread behind some characters. -/
theorem unread_skip (n : Nat) (c : Cursor) : (c.skip n).unread = c.unread.drop n := by
  induction n generalizing c with
  | zero => rfl
  | succ n ih => rw [skip_succ, ih, unread_advance, List.drop_tail]

/-- Behind the first part of a text its second part is unread. -/
theorem unread_skip_append {c : Cursor} {s rest : List Char} (h : c.unread = s ++ rest) :
    (c.skip s.length).unread = rest := by
  rw [unread_skip, h, List.drop_left]

/-- Every advance over a character counts it and makes one request. -/
theorem offset_skip {n : Nat} {c : Cursor} (hn : n ≤ c.unread.length) :
    (c.skip n).offset = c.offset + n ∧
      (c.skip n).source.requests = c.source.requests + n := by
  induction n generalizing c with
  | zero => exact ⟨rfl, rfl⟩
  | succ n ih =>
    cases hlook : c.look with
    | none => simp [unread, hlook] at hn
    | some x =>
      have hadvance : c.advance.offset = c.offset + 1 ∧
          c.advance.source.requests = c.source.requests + 1 := by
        simp [advance, hlook]
      have hlen : n ≤ c.advance.unread.length := by
        rw [unread_advance, List.length_tail]
        omega
      -- each advance over a character counts one place and one request
      obtain ⟨hoffset, hrequests⟩ := ih hlen
      rw [skip_succ, hoffset, hrequests, hadvance.1, hadvance.2]
      omega

theorem Reads.refl (c : Cursor) : c.Reads [] c := ⟨rfl, rfl⟩

/-- Texts are read one behind the other. -/
theorem Reads.trans {c c' c'' : Cursor} {s t : List Char} (h : c.Reads s c')
    (h' : c'.Reads t c'') : c.Reads (s ++ t) c'' := by
  refine ⟨?_, ?_⟩
  · rw [h.unread, h'.unread, List.append_assoc]
  · rw [h'.eq_skip, h.eq_skip, ← skip_add, List.length_append]

/-- Whatever is at hand can be read by advancing. -/
theorem Reads.of_append {c : Cursor} {s rest : List Char} (h : c.unread = s ++ rest) :
    c.Reads s (c.skip s.length) := ⟨by rw [unread_skip_append h, h], rfl⟩

/-- A cursor that has a character at hand reads it by an advance. -/
theorem reads_advance {c : Cursor} {x : Char} (h : c.look = some x) : c.Reads [x] c.advance :=
  ⟨unread_eq_cons h, rfl⟩

/-- The character at hand is the first one that is unread. -/
theorem look_of_unread {c : Cursor} {x : Char} {rest : List Char} (h : c.unread = x :: rest) :
    c.look = some x := by
  rw [look_eq_head?, h, List.head?_cons]

/-- Behind a character and the blanks that follow it the rest is unread. -/
theorem unread_skip_cons {c : Cursor} {x : Char} {w rest : List Char}
    (h : c.unread = x :: (w ++ rest)) : (c.skip (w.length + 1)).unread = rest := by
  rw [unread_skip, h, List.drop_succ_cons, List.drop_left]

/-- Which character is at hand is told by what is unread. -/
theorem isAt_eq {c : Cursor} {x : Char} {rest : List Char} (h : c.unread = x :: rest) (y : Char) :
    c.isAt y = decide (x = y) := by
  rw [isAt, look_of_unread h]
  simp

theorem isAt_of_unread {c : Cursor} {x : Char} {rest : List Char} (h : c.unread = x :: rest) :
    c.isAt x = true := by
  rw [isAt_eq h, decide_eq_true_eq]

theorem isAt_of_ne {c : Cursor} {x y : Char} {rest : List Char} (h : c.unread = x :: rest)
    (hne : x ≠ y) : c.isAt y = false := by
  rw [isAt_eq h, decide_eq_false hne]

/-! ## Runs of characters -/

/-- To take characters of a kind is to advance over them. -/
theorem takeWhile_eq (p : Char → Bool) (c : Cursor) :
    c.takeWhile p = (c.unread.takeWhile p, c.skip (c.unread.takeWhile p).length) := by
  fun_induction takeWhile p c with
  | case1 c h => simp [unread, h]
  | case2 c x h hx run behind htake ih =>
    rw [htake] at ih
    obtain ⟨hrun, hbehind⟩ := Prod.mk.inj ih
    rw [unread_eq_cons h, List.takeWhile_cons_of_pos hx, List.length_cons, skip_succ, hrun, hbehind]
  | case3 c x h hx => simp [unread, h, hx]

theorem reads_takeWhile (p : Char → Bool) (c : Cursor) :
    c.Reads (c.unread.takeWhile p) (c.takeWhile p).2 := by
  have h : c.unread = c.unread.takeWhile p ++ c.unread.dropWhile p :=
    List.takeWhile_append_dropWhile.symm
  rw [takeWhile_eq]
  exact Reads.of_append h

end Cursor

/-- No character with the property stands at the beginning of the text. -/
def StopsAt (p : Char → Bool) (rest : List Char) : Prop := ∀ x ∈ rest.head?, p x = false

instance (p : Char → Bool) : (rest : List Char) → Decidable (StopsAt p rest)
  | [] => isTrue fun _ h => nomatch h
  | x :: _ => decidable_of_decidable_of_iff (p := p x = false)
      ⟨fun h _ hy => (Option.some.inj hy) ▸ h, fun h => h x rfl⟩

/-- A run of characters ends where another one comes. -/
theorem takeWhile_of_stopsAt {p : Char → Bool} {w rest : List Char} (hw : ∀ x ∈ w, p x = true)
    (hrest : StopsAt p rest) : (w ++ rest).takeWhile p = w := by
  rw [List.takeWhile_append_of_pos hw]
  cases rest with
  | nil => rw [List.takeWhile_nil, List.append_nil]
  | cons x rest =>
    have hx : ¬ p x = true := by rw [hrest x rfl]; exact Bool.false_ne_true
    rw [List.takeWhile_cons_of_neg hx, List.append_nil]

theorem blanks_takeWhile (s : List Char) : Blanks (s.takeWhile isBlank) :=
  List.all_eq_true.1 List.all_takeWhile

/-- Blanks are skipped up to the first other character. -/
theorem skipBlanks_of_blanks {c : Cursor} {w rest : List Char} (h : c.unread = w ++ rest)
    (hw : Blanks w) (hrest : StopsAt isBlank rest) : c.skipBlanks = c.skip w.length := by
  rw [Cursor.skipBlanks, Cursor.takeWhile_eq, h, takeWhile_of_stopsAt hw hrest]

/-- What is skipped are blanks. -/
theorem reads_skipBlanks (c : Cursor) : ∃ w, Blanks w ∧ c.Reads w c.skipBlanks :=
  ⟨_, blanks_takeWhile c.unread, Cursor.reads_takeWhile isBlank c⟩

/-! ## A lexeme that is spelled is read -/

namespace Lexeme

/-- A symbol with blanks behind it is read as the symbol. -/
theorem symbol_of_spelled {x : Char} {c : Cursor} {w rest : List Char}
    (h : c.unread = x :: (w ++ rest)) (hw : Blanks w) (hrest : StopsAt isBlank rest) :
    symbol x c = .ok () (c.skip (w.length + 1)) := by
  have hat : c.isAt x = true := by rw [Cursor.isAt_eq h, decide_eq_true_eq]
  have hadvance : c.advance.unread = w ++ rest := by rw [Cursor.unread_advance, h, List.tail_cons]
  rw [symbol, if_pos hat, skipBlanks_of_blanks hadvance hw hrest, Cursor.skip_succ]

/-- A letter with blanks behind it is read as a name, in upper case. -/
theorem letter_of_spelled {x : Char} {c : Cursor} {w rest : List Char}
    (h : c.unread = x :: (w ++ rest)) (hx : x.isAlpha = true) (hw : Blanks w)
    (hrest : StopsAt isBlank rest) :
    letter c = .ok (nameOf x) (c.skip (w.length + 1)) := by
  have hlook : c.look.filter Char.isAlpha = some x := by
    rw [Cursor.look_of_unread h, Option.filter_some, if_pos hx]
  have hadvance : c.advance.unread = w ++ rest := by rw [Cursor.unread_advance, h, List.tail_cons]
  unfold letter
  rw [hlook]
  -- the letter is consumed, and then the blanks
  show EStateM.Result.ok _ c.advance.skipBlanks = _
  rw [skipBlanks_of_blanks hadvance hw hrest, Cursor.skip_succ]
  rfl

/-- A blank is no digit. -/
theorem isDigit_of_isBlank {x : Char} (h : isBlank x = true) : x.isDigit = false := by
  rw [isBlank, Bool.or_eq_true, decide_eq_true_eq, decide_eq_true_eq] at h
  rcases h with rfl | rfl <;> decide

/-- Blanks end a run of digits, and without any the rest does. -/
theorem stopsAt_isDigit_append {w rest : List Char} (hw : Blanks w)
    (hrest : StopsAt Char.isDigit rest) : StopsAt Char.isDigit (w ++ rest) := by
  cases w with
  | nil => exact hrest
  | cons b w =>
    rintro x ⟨⟩
    exact isDigit_of_isBlank (hw b List.mem_cons_self)

/-- Digits are read up to the first other character, with the blanks behind them. -/
theorem digits_of_run {c : Cursor} {ds w rest : List Char} (h : c.unread = ds ++ (w ++ rest))
    (hds : Digits ds) (hw : Blanks w) (hblank : StopsAt isBlank rest)
    (hdigit : StopsAt Char.isDigit (w ++ rest)) :
    digits c = .ok (String.ofList ds) (c.skip (ds.length + w.length)) := by
  -- the run ends where the digits do
  have hrun : c.unread.takeWhile Char.isDigit = ds := by
    rw [h]
    exact takeWhile_of_stopsAt hds.2 hdigit
  have hbehind : (c.skip ds.length).unread = w ++ rest := Cursor.unread_skip_append h
  unfold digits
  rw [Cursor.takeWhile_eq, hrun]
  split
  · next heq => exact absurd (Prod.mk.inj heq).1 hds.1
  · next run behind _ heq =>
    obtain ⟨rfl, rfl⟩ := Prod.mk.inj heq
    rw [skipBlanks_of_blanks hbehind hw hblank, Cursor.skip_add]

theorem digits_of_spelled {c : Cursor} {ds w rest : List Char} (h : c.unread = ds ++ (w ++ rest))
    (hds : Digits ds) (hw : Blanks w) (hblank : StopsAt isBlank rest)
    (hdigit : StopsAt Char.isDigit rest) :
    digits c = .ok (String.ofList ds) (c.skip (ds.length + w.length)) :=
  digits_of_run h hds hw hblank (stopsAt_isDigit_append hw hdigit)

/-- With neither character at hand there is no line end, and nothing is read. -/
theorem lineEnd_of_look {c : Cursor} (hcr : c.look ≠ some '\r') (hlf : c.look ≠ some '\n') :
    lineEnd c = .ok false c := by
  unfold lineEnd
  split
  · next hlook => exact absurd hlook hcr
  · next hlook => exact absurd hlook hlf
  · rfl

/-- A carriage return that has no line feed behind it. -/
theorem lineEnd_of_cr {c : Cursor} {w rest : List Char} (h : c.unread = '\r' :: (w ++ rest))
    (hw : Blanks w) (hblank : StopsAt isBlank rest) (hlf : StopsAt (· = '\n') (w ++ rest)) :
    lineEnd c = .ok true (c.skip (w.length + 1)) := by
  have hadvance : c.advance.unread = w ++ rest := by rw [Cursor.unread_advance, h, List.tail_cons]
  have hat : c.advance.isAt '\n' = false := by
    rw [Cursor.isAt, Cursor.look_eq_head?, hadvance, decide_eq_false_iff_not]
    exact fun hhead => absurd (hlf _ hhead) (by decide)
  simp only [lineEnd, Cursor.look_of_unread h, hat, Bool.false_eq_true, if_false]
  rw [skipBlanks_of_blanks hadvance hw hblank, Cursor.skip_succ]

/-- A line feed is a line end. -/
theorem lineEnd_of_lf {c : Cursor} {w rest : List Char} (h : c.unread = '\n' :: (w ++ rest))
    (hw : Blanks w) (hblank : StopsAt isBlank rest) :
    lineEnd c = .ok true (c.skip (w.length + 1)) := by
  have hadvance : c.advance.unread = w ++ rest := by rw [Cursor.unread_advance, h, List.tail_cons]
  simp only [lineEnd, Cursor.look_of_unread h]
  rw [skipBlanks_of_blanks hadvance hw hblank, Cursor.skip_succ]

/-- A carriage return and a line feed are one line end. -/
theorem lineEnd_of_crlf {c : Cursor} {w rest : List Char}
    (h : c.unread = '\r' :: '\n' :: (w ++ rest)) (hw : Blanks w) (hblank : StopsAt isBlank rest) :
    lineEnd c = .ok true (c.skip (w.length + 2)) := by
  have hfirst : c.advance.unread = '\n' :: (w ++ rest) := by
    rw [Cursor.unread_advance, h, List.tail_cons]
  have hsecond : c.advance.advance.unread = w ++ rest := by
    rw [Cursor.unread_advance, hfirst, List.tail_cons]
  have hat : c.advance.isAt '\n' = true := Cursor.isAt_of_unread hfirst
  simp only [lineEnd, Cursor.look_of_unread h, hat, if_true]
  rw [skipBlanks_of_blanks hsecond hw hblank, Cursor.skip_succ, Cursor.skip_succ]

/-- A line end is read as a whole, if no other one comes right behind it. -/
theorem lineEnd_of_spelled {c : Cursor} {e rest : List Char} (h : c.unread = e ++ rest)
    (he : LineEnd e) (hblank : StopsAt isBlank rest) (hcr : StopsAt (· = '\r') rest)
    (hlf : StopsAt (· = '\n') rest) :
    ∃ seen, lineEnd c = .ok seen (c.skip e.length) := by
  cases he with
  | none =>
    refine ⟨false, lineEnd_of_look ?_ ?_⟩
    · rw [Cursor.look_eq_head?, h, List.nil_append]
      exact fun hhead => absurd (hcr _ hhead) (by decide)
    · rw [Cursor.look_eq_head?, h, List.nil_append]
      exact fun hhead => absurd (hlf _ hhead) (by decide)
  | @cr w hw =>
    -- a line feed behind the carriage return would belong to the same line end
    have hlf' : StopsAt (· = '\n') (w ++ rest) := by
      cases w with
      | nil => exact hlf
      | cons b w =>
        rintro x ⟨⟩
        rw [decide_eq_false_iff_not]
        rintro rfl
        exact absurd (hw '\n' List.mem_cons_self) (by decide)
    exact ⟨true, lineEnd_of_cr h hw hblank hlf'⟩
  | lf hw => exact ⟨true, lineEnd_of_lf h hw hblank⟩
  | crlf hw => exact ⟨true, lineEnd_of_crlf h hw hblank⟩

/-! ## What a lexeme has read spells it -/

/-- What a symbol has read is the symbol with blanks behind it. -/
theorem reads_of_symbol {x : Char} {c c' : Cursor} {u : Unit} (h : symbol x c = .ok u c') :
    ∃ w, Blanks w ∧ c.Reads (x :: w) c' := by
  unfold symbol at h
  split at h
  · next hat =>
    cases h
    have hlook : c.look = some x := by simpa [Cursor.isAt] using hat
    obtain ⟨w, hw, hreads⟩ := reads_skipBlanks c.advance
    exact ⟨w, hw, (Cursor.reads_advance hlook).trans hreads⟩
  · cases h

/-- What a name has read is a letter with blanks behind it. -/
theorem reads_of_letter {c c' : Cursor} {name : String} (h : letter c = .ok name c') :
    ∃ x w, x.isAlpha = true ∧ name = nameOf x ∧ Blanks w ∧ c.Reads (x :: w) c' := by
  unfold letter at h
  split at h
  · next x hx =>
    cases h
    obtain ⟨hlook, halpha⟩ := Option.filter_eq_some_iff.1 hx
    obtain ⟨w, hw, hreads⟩ := reads_skipBlanks c.advance
    exact ⟨x, w, halpha, rfl, hw, (Cursor.reads_advance hlook).trans hreads⟩
  · cases h

/-- What a literal has read are digits with blanks behind them. -/
theorem reads_of_digits {c c' : Cursor} {text : String} (h : digits c = .ok text c') :
    ∃ ds w, Digits ds ∧ text = String.ofList ds ∧ Blanks w ∧ c.Reads (ds ++ w) c' := by
  unfold digits at h
  split at h
  · cases h
  · next run behind hne hrun =>
    cases h
    have hreads := Cursor.reads_takeWhile Char.isDigit c
    have hfst : run = c.unread.takeWhile Char.isDigit := by rw [← Cursor.takeWhile_fst, hrun]
    rw [hrun, ← hfst] at hreads
    -- a run of digits consists of digits
    have hdigits : ∀ d ∈ run, d.isDigit = true := by
      rw [hfst]
      exact List.all_eq_true.1 List.all_takeWhile
    obtain ⟨w, hw, hblanks⟩ := reads_skipBlanks behind
    exact ⟨run, w, ⟨hne, hdigits⟩, rfl, hw, hreads.trans hblanks⟩

/-- What a line end has read is one of its spellings, or nothing. -/
theorem reads_of_lineEnd {c c' : Cursor} {seen : Bool} (h : lineEnd c = .ok seen c') :
    ∃ e, LineEnd e ∧ c.Reads e c' := by
  unfold lineEnd at h
  split at h
  · next hlook =>
    cases h
    split
    · -- a line feed behind the carriage return belongs to it
      next hat =>
      have hlook' : c.advance.look = some '\n' := by simpa [Cursor.isAt] using hat
      obtain ⟨w, hw, hreads⟩ := reads_skipBlanks c.advance.advance
      exact ⟨_, .crlf hw, (Cursor.reads_advance hlook).trans
        ((Cursor.reads_advance hlook').trans hreads)⟩
    · obtain ⟨w, hw, hreads⟩ := reads_skipBlanks c.advance
      exact ⟨_, .cr hw, (Cursor.reads_advance hlook).trans hreads⟩
  · next hlook =>
    cases h
    obtain ⟨w, hw, hreads⟩ := reads_skipBlanks c.advance
    exact ⟨_, .lf hw, (Cursor.reads_advance hlook).trans hreads⟩
  · cases h
    exact ⟨[], .none, Cursor.Reads.refl c⟩

/-- Where none was seen, nothing was read. -/
theorem eq_of_lineEnd_false {c c' : Cursor} (h : lineEnd c = .ok false c') : c' = c := by
  unfold lineEnd at h
  split at h <;> cases h
  rfl

end Lexeme

end OnePass
