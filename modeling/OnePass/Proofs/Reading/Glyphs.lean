import OnePass.Proofs.Formation
import OnePass.Proofs.Reading.Simulation

/-!
# What a text shows to the grammar

Much of a text is no matter to the grammar: the blanks, the case of letters, which of the three line
ends a line has. What is left when all this is taken away are the *glyphs* of the text (`glyphs`). A
blank is no glyph, but it keeps apart what stands on its two sides: digits of one number stand side
by side, and so do the two characters of a line end. So whether a character is a glyph of its own
depends on the one in front of it and on nothing else, and the glyphs of a text are found in one
pass from left to right (`glyphs_append`).

* **`glyphs_congr`** — what stands in front of a text is no matter where the first character of the
  text does not stick to it.
* **`Lexeme.Sees`** — at the start of a lexeme, the lexeme does with the text what a reader of
  glyphs does with the glyphs: `sees_symbol`, `sees_letter`, `sees_digits`, `sees_lineEnd`.
-/

namespace OnePass

/-! ## Shapes -/

/-- A letter is no digit. -/
theorem isDigit_of_isAlpha {c : Char} (h : c.isAlpha = true) : c.isDigit = false := by
  grind [Char.isAlpha, Char.isUpper, Char.isLower, Char.isDigit]

/-- The shape of a letter is its upper case. -/
theorem shapeOf_of_isAlpha {c : Char} (h : c.isAlpha = true) : shapeOf c = c.toUpper := by
  apply if_neg
  rintro rfl
  exact absurd h (by decide)

/-- A character and its shape are both digits, or neither is. -/
theorem isDigit_shapeOf (c : Char) : (shapeOf c).isDigit = c.isDigit := by
  cases halpha : c.isAlpha with
  | true =>
    have hshape : (shapeOf c).isAlpha = true := by rw [isAlpha_shapeOf, halpha]
    rw [isDigit_of_isAlpha hshape, isDigit_of_isAlpha halpha]
  | false =>
    rw [shapeOf, toUpper_of_not_isAlpha halpha]
    split
    · next hcr => subst hcr; decide
    · rfl

/-- A digit is its own shape. -/
theorem shapeOf_of_isDigit {c : Char} (h : c.isDigit = true) : shapeOf c = c := by
  have hcr : c ≠ '\r' := by
    rintro rfl
    exact absurd h (by decide)
  have halpha : c.isAlpha = false := by
    rw [← Bool.not_eq_true]
    intro halpha
    rw [isDigit_of_isAlpha halpha] at h
    exact absurd h Bool.false_ne_true
  rw [shapeOf, if_neg hcr, toUpper_of_not_isAlpha halpha]

/-- Both characters of a line end have one shape. -/
theorem shapeOf_eq_newline_iff {c : Char} : shapeOf c = '\n' ↔ c = '\r' ∨ c = '\n' := by
  constructor
  · intro h
    by_cases hcr : c = '\r'
    · exact .inl hcr
    · right
      have halpha : c.isAlpha = false := by rw [← isAlpha_shapeOf, h]; decide
      rwa [shapeOf, if_neg hcr, toUpper_of_not_isAlpha halpha] at h
  · rintro (rfl | rfl) <;> decide

/-! ## Glyphs -/

/-- Something in a text that is there for the grammar. -/
structure Glyph where
  /-- What it looks like. -/
  shape : Char
  /-- Whether it is a digit of a number that has begun before it. -/
  joined : Bool
  /-- How many characters are left where it stands. -/
  left : Nat
  deriving DecidableEq, Repr

/-- The glyph at another place. -/
def Glyph.moved (f : Nat → Nat) (g : Glyph) : Glyph := { g with left := f g.left }

theorem Glyph.moved_congr {f f' : Nat → Nat} {g : Glyph} (h : f g.left = f' g.left) :
    g.moved f = g.moved f' := by
  rw [moved, moved, h]

theorem Glyph.moved_moved (f f' : Nat → Nat) (g : Glyph) :
    (g.moved f).moved f' = g.moved (f' ∘ f) := rfl

/-- The first character is a part of what the second one belongs to: they are digits of one number,
or the two characters of one line end. -/
def sticks (before c : Char) : Bool := before.isDigit && c.isDigit || before = '\r' && c = '\n'

/-- What does not stick: no two digits, and no line end of two characters. -/
theorem sticks_eq_false_iff {before c : Char} : sticks before c = false ↔
    ¬ (before.isDigit = true ∧ c.isDigit = true) ∧ ¬ (before = '\r' ∧ c = '\n') := by
  rw [← Bool.not_eq_true, sticks, Bool.or_eq_true, Bool.and_eq_true, Bool.and_eq_true,
    decide_eq_true_eq, decide_eq_true_eq, not_or]

/-- The glyphs of a text that stands behind a character. -/
def glyphs (before : Char) : List Char → List Glyph
  | [] => []
  | c :: rest =>
    if isBlank c || before = '\r' && c = '\n' then glyphs c rest
    else ⟨shapeOf c, before.isDigit && c.isDigit, rest.length + 1⟩ :: glyphs c rest

/-- The glyphs of the text at hand, where a lexeme may start. -/
def Cursor.glyphs (c : Cursor) : List Glyph := OnePass.glyphs ' ' c.unread

/-- A blank is no glyph, but it is what stands before the next one. -/
theorem glyphs_cons_blank (before : Char) {c : Char} (hc : isBlank c = true) (rest : List Char) :
    glyphs before (c :: rest) = glyphs c rest := by
  simp [glyphs, hc]

/-- A line feed behind a carriage return is no glyph of its own. -/
theorem glyphs_return_newline (rest : List Char) :
    glyphs '\r' ('\n' :: rest) = glyphs '\n' rest := by
  simp [glyphs]

/-- A character that does not belong to what is in front of it is a glyph of its own. -/
theorem glyphs_cons {before c : Char} (hc : isBlank c = false) (h : sticks before c = false)
    (rest : List Char) :
    glyphs before (c :: rest) = ⟨shapeOf c, false, rest.length + 1⟩ :: glyphs c rest := by
  rw [sticks, Bool.or_eq_false_iff] at h
  rw [glyphs, hc, h.1, h.2]
  rfl

/-- A digit behind a digit is joined to it. -/
theorem glyphs_cons_digit {before c : Char} (hbefore : before.isDigit = true)
    (hc : c.isDigit = true) (rest : List Char) :
    glyphs before (c :: rest) = ⟨shapeOf c, true, rest.length + 1⟩ :: glyphs c rest := by
  -- a digit is neither skipped nor the second half of a line end
  have hblank : isBlank c = false := by
    rw [← Bool.not_eq_true]
    intro h
    rw [Lexeme.isDigit_of_isBlank h] at hc
    exact absurd hc Bool.false_ne_true
  have hlf : c ≠ '\n' := by
    rintro rfl
    exact absurd hc (by decide)
  simp [glyphs, hblank, hlf, hbefore, hc]

/-- What is in front of a text is no matter where the text does not stick to it. -/
theorem glyphs_congr {before before' : Char} {text : List Char}
    (h : ∀ c ∈ text.head?, sticks before c = false)
    (h' : ∀ c ∈ text.head?, sticks before' c = false) :
    glyphs before text = glyphs before' text := by
  cases text with
  | nil => rfl
  | cons c rest =>
    cases hc : isBlank c with
    | true => rw [glyphs_cons_blank before hc, glyphs_cons_blank before' hc]
    | false => rw [glyphs_cons hc (h c rfl), glyphs_cons hc (h' c rfl)]

/-- Nothing sticks to the character: it is no digit, and no line end goes on behind it. -/
def isLoose (c : Char) : Bool := !(c.isDigit || c = '\r')

/-- Nothing sticks to a loose character. -/
theorem sticks_of_isLoose {before : Char} (h : isLoose before = true) (c : Char) :
    sticks before c = false := by
  simp only [isLoose, Bool.not_eq_true', Bool.or_eq_false_iff] at h
  simp [sticks, h]

theorem glyphs_of_isLoose {before : Char} (h : isLoose before = true) (text : List Char) :
    glyphs before text = glyphs ' ' text :=
  glyphs_congr (fun c _ => sticks_of_isLoose h c) fun c _ => sticks_of_isLoose (by decide) c

/-- Blanks are loose. -/
theorem isLoose_of_isBlank {c : Char} (h : isBlank c = true) : isLoose c = true := by
  rw [isBlank, Bool.or_eq_true, decide_eq_true_eq, decide_eq_true_eq] at h
  rcases h with rfl | rfl <;> decide

/-- Letters are loose. -/
theorem isLoose_of_isAlpha {c : Char} (h : c.isAlpha = true) : isLoose c = true := by
  have hcr : c ≠ '\r' := by
    rintro rfl
    exact absurd h (by decide)
  simp [isLoose, hcr, isDigit_of_isAlpha h]

theorem isLoose_of_isSymbol {c : Char} (h : isSymbol c = true) : isLoose c = true := by
  simp only [isSymbol, Char.isAlphanum, Bool.not_eq_true', Bool.or_eq_false_iff] at h
  simp [isLoose, h]

/-- Blanks in front of a text have no glyphs. -/
theorem glyphs_dropWhile (text : List Char) :
    glyphs ' ' (text.dropWhile isBlank) = glyphs ' ' text := by
  induction text with
  | nil => rfl
  | cons c rest ih =>
    cases hc : isBlank c with
    | true =>
      rw [List.dropWhile_cons_of_pos hc, ih, glyphs_cons_blank ' ' hc,
        glyphs_of_isLoose (isLoose_of_isBlank hc)]
    | false => rw [List.dropWhile_cons_of_neg (by simp [hc])]

/-- The character that stands in front of what comes next. -/
def lastOf (before : Char) (text : List Char) : Char := text.getLast?.getD before

theorem lastOf_cons (before c : Char) (text : List Char) :
    lastOf before (c :: text) = lastOf c text := by
  rw [lastOf, lastOf, List.getLast?_cons, Option.getD_some]

/-- The glyphs of a text that is put together are those of its parts, the second of which stands
behind the last character of the first. -/
theorem glyphs_append (before : Char) (a b : List Char) :
    glyphs before (a ++ b) =
      (glyphs before a).map (Glyph.moved (· + b.length)) ++ glyphs (lastOf before a) b := by
  induction a generalizing before with
  | nil => rfl
  | cons c a ih =>
    rw [lastOf_cons, List.cons_append, glyphs, glyphs, ih]
    split
    · rfl
    · simp [Glyph.moved, Nat.add_right_comm]

/-- A glyph stands where characters are left, and at most those of the text. -/
theorem left_of_mem_glyphs {before : Char} {text : List Char} {g : Glyph}
    (hg : g ∈ glyphs before text) : 0 < g.left ∧ g.left ≤ text.length := by
  induction text generalizing before with
  | nil => simp [glyphs] at hg
  | cons c rest ih =>
    have hrest : g ∈ glyphs c rest → 0 < g.left ∧ g.left ≤ (c :: rest).length := by
      intro h
      have hle := ih h
      simp only [List.length_cons]
      omega
    -- the first character makes a glyph or is skipped
    rw [glyphs] at hg
    split at hg
    · exact hrest hg
    · rcases List.mem_cons.1 hg with rfl | hg
      · simp
      · exact hrest hg

/-! ## The glyph at hand -/

namespace Cursor

/-- A lexeme may start here: there is no blank at hand. -/
def Ready (c : Cursor) : Prop := StopsAt isBlank c.unread

/-- Behind skipped blanks a lexeme can start. -/
theorem ready_skipBlanks (c : Cursor) : c.skipBlanks.Ready := by
  rw [Ready, skipBlanks, unread_takeWhile]
  exact stopsAt_dropWhile isBlank c.unread

/-- To skip blanks leaves the glyphs as they are. -/
theorem glyphs_skipBlanks (c : Cursor) : c.skipBlanks.glyphs = c.glyphs := by
  rw [glyphs, skipBlanks, unread_takeWhile, glyphs_dropWhile, glyphs]

theorem glyphs_of_nil {c : Cursor} (h : c.unread = []) : c.glyphs = [] := by
  rw [glyphs, h]
  rfl

/-- Where a lexeme can start, the character at hand is the first glyph. -/
theorem Ready.glyphs_of_cons {c : Cursor} (h : c.Ready) {x : Char} {rest : List Char}
    (hx : c.unread = x :: rest) :
    c.glyphs = ⟨shapeOf x, false, rest.length + 1⟩ :: OnePass.glyphs x rest := by
  have hblank : isBlank x = false := h x (by rw [hx]; rfl)
  rw [glyphs, hx, glyphs_cons hblank (sticks_of_isLoose (by decide) x)]

/-- What is at hand is told by the first glyph. -/
theorem Ready.shape?_eq {c : Cursor} (h : c.Ready) : c.shape? = c.glyphs.head?.map Glyph.shape := by
  rw [shape?, look_eq_head?]
  cases hunread : c.unread with
  | nil => rw [glyphs_of_nil hunread]; rfl
  | cons x rest => rw [h.glyphs_of_cons hunread]; rfl

/-- How much of the text is left is told by the first glyph. -/
theorem Ready.length_unread {c : Cursor} (h : c.Ready) :
    c.unread.length = (c.glyphs.head?.map Glyph.left).getD 0 := by
  cases hunread : c.unread with
  | nil => rw [glyphs_of_nil hunread]; rfl
  | cons x rest => rw [h.glyphs_of_cons hunread]; rfl

/-- Behind a character that nothing sticks to, and the blanks that follow it, come the glyphs that
come behind the character. -/
theorem behind {c : Cursor} {x : Char} {rest : List Char} (hx : c.unread = x :: rest)
    (hloose : isLoose x = true) :
    c.advance.skipBlanks.Ready ∧ c.advance.skipBlanks.glyphs = OnePass.glyphs x rest := by
  refine ⟨ready_skipBlanks _, ?_⟩
  rw [glyphs_skipBlanks, glyphs, unread_advance, hx, List.tail_cons, glyphs_of_isLoose hloose]

end Cursor

/-! ## Lexemes read glyphs -/

namespace Lexeme

/-- What a lexeme does with glyphs: it answers and leaves the others, or it is missing. -/
abbrev Reader (β : Type) := List Glyph → Option (β × List Glyph)

/-- Where a lexeme may start, the lexeme answers what the reader answers and leaves the glyphs that
the reader leaves; if the reader has no answer, the lexeme blames the character at hand. What the
reader answers does not depend on where the glyphs stand. -/
structure Sees {β : Type} (lexeme : Scan β) (read : Reader β) (what : String) : Prop where
  reads : ∀ c : Cursor, c.Ready →
    match read c.glyphs with
    | some (b, gs) => ∃ d, lexeme c = .ok b d ∧ d.Ready ∧ d.glyphs = gs
    | none => lexeme c = .error (c.missing what) c
  moved : ∀ (f : Nat → Nat) (gs : List Glyph),
    read (gs.map (Glyph.moved f)) = (read gs).map (Prod.map id (List.map (Glyph.moved f)))

/-- The first glyph, if it looks right. -/
def readGlyph {β : Type} (p : Char → Bool) (answer : Char → β) : Reader β
  | [] => none
  | g :: gs => if p g.shape then some (answer g.shape, gs) else none

def readDigits : Reader String
  | [] => none
  | g :: gs =>
    if g.shape.isDigit then
      some (String.ofList (g.shape :: (gs.takeWhile Glyph.joined).map Glyph.shape),
        gs.dropWhile Glyph.joined)
    else none

def readLineEnd : Reader Bool
  | [] => some (false, [])
  | g :: gs => if g.shape = '\n' then some (true, gs) else some (false, g :: gs)

section

variable {β : Type} {p : Char → Bool} {g : Glyph}

theorem readGlyph_of_pos (answer : Char → β) (h : p g.shape = true) (gs : List Glyph) :
    readGlyph p answer (g :: gs) = some (answer g.shape, gs) := if_pos h

theorem readGlyph_of_neg (answer : Char → β) (h : p g.shape = false) (gs : List Glyph) :
    readGlyph p answer (g :: gs) = none := if_neg (by simp [h])

end

/-- To move the glyphs changes nothing of what is read. -/
theorem moved_readGlyph {β : Type} (p : Char → Bool) (answer : Char → β) (f : Nat → Nat)
    (gs : List Glyph) : readGlyph p answer (gs.map (Glyph.moved f)) =
      (readGlyph p answer gs).map (Prod.map id (List.map (Glyph.moved f))) := by
  cases gs with
  | nil => rfl
  | cons g gs =>
    simp only [List.map_cons, readGlyph, Glyph.moved]
    cases p g.shape <;> rfl

/-- A symbol is the glyph with its shape. -/
theorem sees_symbol {x : Char} (hx : isSymbol x = true) :
    Sees (symbol x) (readGlyph (· = x) fun _ => ()) ("\"" ++ x.toString ++ "\"") := by
  refine ⟨fun c hc => ?_, moved_readGlyph _ _⟩
  cases hunread : c.unread with
  | nil =>
    rw [Cursor.glyphs_of_nil hunread]
    have hat : c.isAt x = false := by simp [Cursor.isAt, Cursor.look_eq_head?, hunread]
    simp [symbol, hat, readGlyph]
  | cons y rest =>
    rw [hc.glyphs_of_cons hunread]
    -- a symbol is the only character of its shape
    by_cases hy : y = x
    · subst hy
      have hshape : shapeOf y = y := (shapeOf_eq_iff hx).2 rfl
      rw [readGlyph_of_pos _ (by simp [hshape])]
      have hbehind := Cursor.behind hunread (isLoose_of_isSymbol hx)
      exact ⟨_, if_pos (Cursor.isAt_of_unread hunread), hbehind⟩
    · have hshape : shapeOf y ≠ x := fun h => hy ((shapeOf_eq_iff hx).1 h)
      rw [readGlyph_of_neg _ (by simp [hshape])]
      exact if_neg (by simp [Cursor.isAt_of_ne hunread hy])

/-- A name is a glyph with the shape of a letter, in upper case already. -/
theorem sees_letter : Sees letter (readGlyph Char.isAlpha Char.toString) "Name" := by
  refine ⟨fun c hc => ?_, moved_readGlyph _ _⟩
  -- the first glyph, which is the character at hand as no blank is there
  cases hunread : c.unread with
  | nil =>
    rw [Cursor.glyphs_of_nil hunread]
    simp [letter, readGlyph, Cursor.look_eq_head?, hunread]
  | cons y rest =>
    rw [hc.glyphs_of_cons hunread]
    have hlook : c.look = some y := Cursor.look_of_unread hunread
    cases hy : y.isAlpha with
    | true =>
      rw [readGlyph_of_pos _ (by rw [isAlpha_shapeOf, hy]), shapeOf_of_isAlpha hy]
      refine ⟨c.advance.skipBlanks, ?_, Cursor.behind hunread (isLoose_of_isAlpha hy)⟩
      simp only [letter, hlook, Option.filter_some, hy, if_true]
    | false =>
      rw [readGlyph_of_neg _ (by rw [isAlpha_shapeOf, hy])]
      simp only [letter, hlook, Option.filter_some, hy, Bool.false_eq_true, if_false]

/-! ### Numbers -/

/-- Behind a character that is no digit, no number goes on. -/
theorem joined_eq_false {before : Char} (h : before.isDigit = false) (text : List Char) :
    ∀ g ∈ (glyphs before text).head?, g.joined = false := by
  induction text generalizing before with
  | nil => simp [glyphs]
  | cons c rest ih =>
    rw [glyphs]
    split
    · next hskip =>
      refine ih ?_
      -- what is skipped is no digit, so nothing joins behind it
      rcases Bool.or_eq_true_iff.1 hskip with hblank | hlf
      · exact isDigit_of_isBlank hblank
      · simp only [Bool.and_eq_true, decide_eq_true_eq] at hlf
        rw [hlf.2]
        decide
    · simp [h]

/-- A number goes on as long as there are digits. -/
theorem glyphs_of_isDigit {d : Char} (hd : d.isDigit = true) (text : List Char) :
    ((glyphs d text).takeWhile Glyph.joined).map Glyph.shape = text.takeWhile Char.isDigit ∧
      (glyphs d text).dropWhile Glyph.joined = glyphs ' ' (text.dropWhile Char.isDigit) := by
  induction text generalizing d with
  | nil => exact ⟨rfl, rfl⟩
  | cons c rest ih =>
    cases hc : c.isDigit with
    | true =>
      obtain ⟨htake, hdrop⟩ := ih hc
      rw [glyphs_cons_digit hd hc, shapeOf_of_isDigit hc, List.takeWhile_cons_of_pos hc,
        List.dropWhile_cons_of_pos hc]
      simp [htake, hdrop]
    | false =>
      -- what is no digit does not stick to one, so it is as if it stood at the beginning
      have hcongr : glyphs d (c :: rest) = glyphs ' ' (c :: rest) := by
        apply glyphs_congr
        · rintro x ⟨⟩
          simp [sticks, hc]
          rintro rfl
          exact absurd hd (by decide)
        · intro x _
          exact sticks_of_isLoose (by decide) x
      have hjoined := joined_eq_false (by decide : ' '.isDigit = false) (c :: rest)
      rw [hcongr, List.takeWhile_cons_of_neg (by simp [hc]),
        List.dropWhile_cons_of_neg (by simp [hc])]
      cases hglyphs : glyphs ' ' (c :: rest) with
      | nil => exact ⟨rfl, rfl⟩
      | cons g gs =>
        have hg : g.joined = false := hjoined g (by rw [hglyphs]; rfl)
        simp [hg]

/-- Digits are the glyph at hand and those joined to it. -/
theorem sees_digits : Sees digits readDigits "Integer" := by
  refine ⟨fun c hc => ?_, fun f gs => ?_⟩
  · cases hunread : c.unread with
    | nil =>
      rw [Cursor.glyphs_of_nil hunread]
      simp [digits, readDigits, Cursor.takeWhile_eq, hunread]
    | cons y rest =>
      rw [hc.glyphs_of_cons hunread]
      cases hy : y.isDigit with
      | true =>
        -- the glyphs that are joined are the digits behind the first one
        obtain ⟨htake, hdrop⟩ := glyphs_of_isDigit hy rest
        rw [readDigits, shapeOf_of_isDigit hy, if_pos hy, htake, hdrop]
        refine ⟨(c.takeWhile Char.isDigit).2.skipBlanks, ?_, Cursor.ready_skipBlanks _, ?_⟩
        · simp only [digits, Cursor.takeWhile_eq, hunread, List.takeWhile_cons_of_pos hy]
        · rw [Cursor.glyphs_skipBlanks, Cursor.glyphs, Cursor.unread_takeWhile, hunread,
            List.dropWhile_cons_of_pos hy]
      | false =>
        rw [readDigits, if_neg (by simp [isDigit_shapeOf, hy])]
        simp [digits, Cursor.takeWhile_eq, hunread, hy]
  · cases gs with
    | nil => rfl
    | cons g gs =>
      have hjoined : Glyph.joined ∘ Glyph.moved f = Glyph.joined := rfl
      have hshape : Glyph.shape ∘ Glyph.moved f = Glyph.shape := rfl
      simp only [List.map_cons, readDigits, Glyph.moved]
      cases g.shape.isDigit with
      | true =>
        simp only [if_true, Option.map_some, Prod.map, id_eq]
        rw [List.takeWhile_map, List.dropWhile_map, hjoined, List.map_map, hshape]
      | false => rfl

/-! ### Line ends -/

/-- Behind a carriage return the line feed that goes with it is passed over, too. -/
theorem glyphs_behind_return (rest : List Char) :
    glyphs ' ' (if rest.head? = some '\n' then rest.tail else rest) = glyphs '\r' rest := by
  split
  · next h =>
    obtain ⟨rest, rfl⟩ := List.head?_eq_some_iff.1 h
    have hloose : isLoose '\n' = true := by decide
    rw [glyphs_return_newline, glyphs_of_isLoose hloose, List.tail_cons]
  · next h =>
    -- only a line feed sticks to a carriage return
    apply glyphs_congr
    · intro c _
      exact sticks_of_isLoose (by decide) c
    · intro c hc
      have hlf : c ≠ '\n' := by
        rintro rfl
        exact h hc
      simp [sticks, hlf]

/-- A line end is one glyph, in each of its forms. -/
theorem sees_lineEnd (what : String) : Sees lineEnd readLineEnd what := by
  refine ⟨fun c hc => ?_, fun f gs => ?_⟩
  · cases hunread : c.unread with
    | nil =>
      have hlook : c.look = none := by rw [Cursor.look_eq_head?, hunread]; rfl
      have hglyphs := Cursor.glyphs_of_nil hunread
      rw [hglyphs]
      exact ⟨c, by simp [lineEnd, hlook], hc, hglyphs⟩
    | cons y rest =>
      have hlook : c.look = some y := Cursor.look_of_unread hunread
      have hglyphs := hc.glyphs_of_cons hunread
      rw [hglyphs]
      by_cases hend : shapeOf y = '\n'
      · rw [readLineEnd, if_pos hend]
        -- a carriage return may have a line feed behind it, which then is no glyph
        rcases shapeOf_eq_newline_iff.1 hend with rfl | rfl
        · refine ⟨_, by simp only [lineEnd, hlook]; rfl, Cursor.ready_skipBlanks _, ?_⟩
          have hadvance : c.advance.unread = rest := by rw [Cursor.unread_advance, hunread]; rfl
          rw [Cursor.glyphs_skipBlanks, Cursor.glyphs, ← glyphs_behind_return]
          congr 1
          rw [Cursor.isAt, Cursor.look_eq_head?, hadvance]
          by_cases hlf : rest.head? = some '\n'
          · simp [hlf, hadvance]
          · simp [hlf, hadvance]
        · refine ⟨_, by simp only [lineEnd, hlook], Cursor.behind hunread (by decide)⟩
      · rw [readLineEnd, if_neg hend]
        refine ⟨c, lineEnd_of_look ?_ ?_, hc, hglyphs⟩
        · rw [hlook]
          rintro ⟨⟩
          exact hend (by decide)
        · rw [hlook]
          rintro ⟨⟩
          exact hend (by decide)
  · cases gs with
    | nil => rfl
    | cons g gs =>
      simp only [List.map_cons, readLineEnd, Glyph.moved]
      split <;> rfl

end Lexeme

end OnePass
