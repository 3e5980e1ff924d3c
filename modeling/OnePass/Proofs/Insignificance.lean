import OnePass.Proofs.Layouts

/-!
# What is no matter in a text

Some things can be changed in a text without a change of its glyphs.

* **`spacing_insignificant`** — blanks may stand between any two characters that do not belong
  together, and letters may be in either case.
* **`lineEnds_uniform`** — the lines of a text may end in any one of the three ways.

Neither asks whether the text is a program: what is no program is refused for the same reason, and
the character that is blamed is the same, wherever it stands now.
-/

namespace OnePass

/-! ## The case of letters -/

/-- The second text is the first with some letters in the other case. -/
def SameLetters (text text' : List Char) : Prop := text'.map Char.toUpper = text.map Char.toUpper

instance (text text' : List Char) : Decidable (SameLetters text text') :=
  inferInstanceAs (Decidable (_ = _))

/-- A character in the other case is a letter, or it is the character itself. -/
theorem eq_or_isAlpha_of_toUpper {c c' : Char} (h : c'.toUpper = c.toUpper) :
    c' = c ∨ c.isAlpha = true ∧ c'.isAlpha = true := by
  have halpha : c'.isAlpha = c.isAlpha := by rw [← isAlpha_toUpper c', h, isAlpha_toUpper c]
  cases hc : c.isAlpha with
  | true => exact .inr ⟨rfl, by rw [halpha, hc]⟩
  | false =>
    rw [hc] at halpha
    rw [toUpper_of_not_isAlpha halpha, toUpper_of_not_isAlpha hc] at h
    exact .inl h

theorem isBlank_of_isAlpha {c : Char} (h : c.isAlpha = true) : isBlank c = false := by
  rw [← Bool.not_eq_true]
  intro hblank
  rw [isBlank, Bool.or_eq_true, decide_eq_true_eq, decide_eq_true_eq] at hblank
  rcases hblank with rfl | rfl <;> exact absurd h (by decide)

/-- A letter is a glyph, whatever is in front of it, and nothing sticks to it. -/
theorem glyphs_cons_letter {c : Char} (hc : c.isAlpha = true) (before : Char) (rest : List Char) :
    glyphs before (c :: rest) = ⟨c.toUpper, false, rest.length + 1⟩ :: glyphs ' ' rest := by
  have hsticks : sticks before c = false := by
    have hlf : c ≠ '\n' := by
      rintro rfl
      exact absurd hc (by decide)
    simp [sticks, isDigit_of_isAlpha hc, hlf]
  rw [glyphs_cons (isBlank_of_isAlpha hc) hsticks, shapeOf_of_isAlpha hc,
    glyphs_of_isLoose (isLoose_of_isAlpha hc)]

/-- The case of letters is not seen. -/
theorem SameLetters.glyphs_eq {text text' : List Char} (h : SameLetters text text')
    (before : Char) : glyphs before text' = glyphs before text := by
  induction text generalizing text' before with
  | nil => rw [List.map_eq_nil_iff.1 h]
  | cons c rest ih =>
    obtain ⟨c', rest', rfl, hc, hrest⟩ := List.map_eq_cons_iff.1 h
    have hlength : rest'.length = rest.length := by
      simpa using congrArg List.length hrest
    rcases eq_or_isAlpha_of_toUpper hc with rfl | ⟨halpha, halpha'⟩
    · rw [glyphs, glyphs, ih hrest, hlength]
    · rw [glyphs_cons_letter halpha, glyphs_cons_letter halpha', ih hrest, hlength, hc]

/-! ## Blanks -/

/-- Blanks that are put between two characters are not seen, unless they part what belongs
together. -/
theorem glyphs_blanks_append {w b : List Char} (hw : Blanks w) {before : Char}
    (h : ∀ c ∈ b.head?, sticks before c = false) : glyphs before (w ++ b) = glyphs before b := by
  induction w generalizing before with
  | nil => rfl
  | cons x w ih =>
    have hx : isBlank x = true := hw x List.mem_cons_self
    have hloose : ∀ c ∈ b.head?, sticks x c = false := fun c _ =>
      sticks_of_isLoose (isLoose_of_isBlank hx) c
    rw [List.cons_append, glyphs_cons_blank before hx,
      ih (fun c hc => hw c (List.mem_cons_of_mem x hc)) hloose]
    exact glyphs_congr hloose h

/-- The place of an offset in a text into which so many blanks were put. -/
def behindBlanks (front blanks : Nat) (k : Nat) : Nat := if k < front then k else k + blanks

/-- Blanks between two parts move the glyphs in front of them further from the end, and no
others. -/
theorem glyphs_spaced {a w b : List Char} (hw : Blanks w)
    (h : ∀ c ∈ b.head?, sticks (lastOf ' ' a) c = false) :
    glyphs ' ' (a ++ (w ++ b)) = (glyphs ' ' (a ++ b)).map (Glyph.moved fun left =>
      a.length + (w.length + b.length)
        - behindBlanks a.length w.length (a.length + b.length - left)) := by
  rw [glyphs_append, glyphs_append ' ' a b, glyphs_blanks_append hw h, List.map_append,
    List.map_map]
  congr 1
  · apply List.map_congr_left
    intro g hg
    obtain ⟨hpos, hle⟩ := left_of_mem_glyphs hg
    -- a glyph in front of the blanks has them and what follows them behind it
    rw [Function.comp_apply, Glyph.moved_moved]
    apply Glyph.moved_congr
    simp only [behindBlanks, List.length_append, Function.comp_apply]
    split <;> omega
  · rw [List.map_congr_left (g := id), List.map_id]
    intro g hg
    obtain ⟨hpos, hle⟩ := left_of_mem_glyphs hg
    -- behind the blanks as many characters are left as before
    show g.moved _ = g.moved id
    apply Glyph.moved_congr
    simp only [behindBlanks, id_eq]
    split <;> omega

/-- The text with blanks in it, and with letters in either case. -/
theorem relayout_spaced {a w b src' : String} (hw : Blanks w.toList)
    (h : ∀ c ∈ b.toList.head?, sticks (lastOf ' ' a.toList) c = false)
    (hcase : SameLetters (a ++ w ++ b).toList src'.toList) :
    Relayout (behindBlanks a.length w.length) (a ++ b) src' := by
  have hlength : src'.length = a.length + (w.length + b.length) := by
    have hmap := congrArg List.length hcase
    simp only [List.length_map, String.length_toList, String.length_append] at hmap
    omega
  refine ⟨?_, fun k hk => ?_, ?_⟩
  · -- places are counted from the end, where the blanks are behind or not
    rw [hcase.glyphs_eq, hlength]
    simp only [String.toList_append, ← String.length_toList, List.length_append, List.append_assoc]
    exact glyphs_spaced hw h
  · rw [String.length_append] at hk
    unfold behindBlanks
    split <;> omega
  · rw [String.length_append, hlength, behindBlanks, if_neg (by omega)]
    omega

/-- Blanks that are put between two characters of a text, and letters that are put in the other
case, are no matter to what the text does, as long as the characters are not digits, which would be
parted, nor the two halves of a line end. The output is the same, and so are the variables or the
number of instructions, or the fault; the column of a fault that blames the text is further on by
the number of blanks where it is behind them. A fault that does not blame the text has no column
before and after. -/
theorem spacing_insignificant {a w b src' : String} (hw : Blanks w.toList)
    (hdigits : ¬ (a.toList.getLast?.any Char.isDigit = true ∧
      b.toList.head?.any Char.isDigit = true))
    (hreturn : ¬ (a.toList.getLast? = some '\r' ∧ b.toList.head? = some '\n'))
    (hcase : SameLetters (a ++ w ++ b).toList src'.toList) :
    (run (.ofText (a ++ b))).Relaid (behindBlanks a.length w.length) (run (.ofText src')) ∧
      (compile (.ofText (a ++ b))).Relaid (behindBlanks a.length w.length)
        (compile (.ofText src')) := by
  have hsticks : ∀ c ∈ b.toList.head?, sticks (lastOf ' ' a.toList) c = false := by
    intro c hc
    rw [lastOf]
    -- two characters belong together if both are digits, or a carriage return and a line feed
    cases hlast : a.toList.getLast? with
    | none => exact sticks_of_isLoose (by decide) c
    | some x =>
      rw [hlast, Option.mem_def.1 hc] at hdigits hreturn
      refine sticks_eq_false_iff.2 ⟨hdigits, fun h => hreturn ⟨congrArg some h.1, ?_⟩⟩
      rw [h.2]
  have h := relayout_spaced hw hsticks hcase
  exact ⟨run_relaid h, compile_relaid h⟩

/-- A line feed may be parted from a digit, but the fault behind it is found further on. -/
theorem spacing_insignificant_output :
    Blanks " \t".toList ∧
    ¬ ("b=(1+a)*2".toList.getLast?.any Char.isDigit = true ∧
      "\n!b\n!1;".toList.head?.any Char.isDigit = true) ∧
    ¬ ("b=(1+a)*2".toList.getLast? = some '\r' ∧ "\n!b\n!1;".toList.head? = some '\n') ∧
    SameLetters ("b=(1+a)*2" ++ " \t" ++ "\n!b\n!1;").toList "B=(1+a)*2 \t\n!B\n!1;".toList ∧
    (run (.ofText ("b=(1+a)*2" ++ "\n!b\n!1;"))).Relaid (behindBlanks 9 2)
      (run (.ofText "B=(1+a)*2 \t\n!B\n!1;")) := by
  have hw : Blanks " \t".toList := by decide
  have hdigits : ¬ ("b=(1+a)*2".toList.getLast?.any Char.isDigit = true ∧
      "\n!b\n!1;".toList.head?.any Char.isDigit = true) := by decide
  have hreturn : ¬ ("b=(1+a)*2".toList.getLast? = some '\r' ∧
      "\n!b\n!1;".toList.head? = some '\n') := by decide
  have hcase : SameLetters ("b=(1+a)*2" ++ " \t" ++ "\n!b\n!1;").toList
      "B=(1+a)*2 \t\n!B\n!1;".toList := by decide
  exact ⟨hw, hdigits, hreturn, hcase, (spacing_insignificant hw hdigits hreturn hcase).1⟩

example : (run (.ofText "B=(1+a)*2 \t\n!B\n!1;")).result = .error ⟨.expected "Name", ⟨16, 17⟩⟩ := by
  cbv

/-! ## Line ends -/

/-- The text with something else at the end of each of its lines. -/
def withLineEnd (e : List Char) (text : List Char) : List Char :=
  text.flatMap fun c => if c = '\n' then e else [c]

/-- The line ends of two parts are changed one by one. -/
theorem withLineEnd_append (e a b : List Char) :
    withLineEnd e (a ++ b) = withLineEnd e a ++ withLineEnd e b := List.flatMap_append

theorem withLineEnd_cons_newline (e rest : List Char) :
    withLineEnd e ('\n' :: rest) = e ++ withLineEnd e rest := rfl

theorem withLineEnd_cons_of_ne (e : List Char) {c : Char} (hc : c ≠ '\n') (rest : List Char) :
    withLineEnd e (c :: rest) = c :: withLineEnd e rest := by
  simp [withLineEnd, hc]

/-- Every line becomes longer by what there is more at its end. -/
theorem length_withLineEnd (x : Char) (tail text : List Char) :
    (withLineEnd (x :: tail) text).length = text.length + text.count '\n' * tail.length := by
  induction text with
  | nil => simp [withLineEnd]
  | cons c rest ih =>
    by_cases hc : c = '\n'
    · subst hc
      rw [withLineEnd_cons_newline, List.length_append, ih, List.count_cons_self, Nat.add_mul]
      simp only [List.length_cons]
      omega
    · rw [withLineEnd_cons_of_ne _ hc, List.length_cons, ih, List.count_cons_of_ne hc,
        List.length_cons]
      omega

/-- What may follow the carriage return at the end of a line. -/
def ReturnTail (tail : List Char) : Prop := tail = [] ∨ tail = ['\n']

/-- A carriage return is a glyph, and what belongs to its line end is not seen. -/
theorem glyphs_return_append {tail : List Char} (htail : ReturnTail tail) (before : Char)
    (rest : List Char) : ∃ before', before'.isDigit = false ∧
      glyphs before ('\r' :: tail ++ rest) =
        ⟨'\n', false, tail.length + rest.length + 1⟩ :: glyphs before' rest := by
  have hsticks : sticks before '\r' = false :=
    sticks_eq_false_iff.2 ⟨fun h => absurd h.2 (by decide), fun h => absurd h.2 (by decide)⟩
  have hreturn (rest : List Char) : glyphs before ('\r' :: rest) =
      ⟨'\n', false, rest.length + 1⟩ :: glyphs '\r' rest := glyphs_cons (by decide) hsticks rest
  rcases htail with rfl | rfl
  · exact ⟨'\r', by decide, by simp [hreturn]⟩
  · refine ⟨'\n', by decide, ?_⟩
    rw [List.cons_append, hreturn, List.cons_append, List.nil_append, glyphs_return_newline]
    simp [Nat.add_comm]

/-- Where the lines end otherwise, the glyphs are the same. So many characters as were left are as
many as the rest of the text has become. -/
theorem glyphs_withLineEnd {tail : List Char} (htail : ReturnTail tail) {f : Nat → Nat}
    {text : List Char} (hcr : '\r' ∉ text) {before before' : Char} (hbefore : before ≠ '\r')
    (hdigit : before'.isDigit = before.isDigit)
    (hf : ∀ k ≤ text.length,
      f (text.length - k) = (withLineEnd ('\r' :: tail) (text.drop k)).length) :
    glyphs before' (withLineEnd ('\r' :: tail) text) =
      (glyphs before text).map (Glyph.moved f) := by
  induction text generalizing before before' with
  | nil => rfl
  | cons c rest ih =>
    have hhead := hf 0 (Nat.zero_le _)
    have hrest : ∀ k ≤ rest.length,
        f (rest.length - k) = (withLineEnd ('\r' :: tail) (rest.drop k)).length := by
      intro k hk
      have hsucc := hf (k + 1) (by simpa using hk)
      rwa [List.length_cons, Nat.add_sub_add_right, List.drop_succ_cons] at hsucc
    have hcr' : '\r' ∉ rest := fun h => hcr (List.mem_cons_of_mem c h)
    rw [Nat.sub_zero, List.drop_zero, List.length_cons] at hhead
    by_cases hc : c = '\n'
    · subst hc
      -- no carriage return stands in front of a line feed, so each one is a glyph
      have hsticks : sticks before '\n' = false :=
        sticks_eq_false_iff.2 ⟨fun h => absurd h.2 (by decide), fun h => hbefore h.1⟩
      obtain ⟨b, hb, hglyphs⟩ :=
        glyphs_return_append htail before' (withLineEnd ('\r' :: tail) rest)
      have hshape : shapeOf '\n' = '\n' := by decide
      have hfeed : '\n' ≠ '\r' := by decide
      have hbehind := ih hcr' hfeed hb hrest
      rw [withLineEnd_cons_newline] at hhead ⊢
      rw [hglyphs, glyphs_cons (by decide) hsticks, hbehind, List.map_cons, Glyph.moved, hhead,
        hshape]
      simp [Nat.add_right_comm]
    · -- any other character is the same in both texts, only its place is not
      have hne : c ≠ '\r' := by
        rintro rfl
        exact hcr List.mem_cons_self
      have hbehind := ih hcr' hne (rfl : c.isDigit = c.isDigit) hrest
      rw [withLineEnd_cons_of_ne _ hc] at hhead ⊢
      rw [List.length_cons] at hhead
      simp only [glyphs, hc, decide_false, Bool.and_false, Bool.or_false, hdigit, hbehind]
      split
      · rfl
      · rw [List.map_cons, Glyph.moved, hhead]

/-- The place of an offset in a text with so many characters more at the end of each line. -/
def behindLines (text : List Char) (more : Nat) (k : Nat) : Nat :=
  k + (text.take k).count '\n' * more

/-- A text without carriage returns keeps its glyphs when every line feed becomes a carriage return,
with a line feed behind it or without. -/
theorem relayout_lineEnds {tail : List Char} (htail : ReturnTail tail) {src : String}
    (hcr : '\r' ∉ src.toList) :
    Relayout (behindLines src.toList tail.length) src
      (String.ofList (withLineEnd ('\r' :: tail) src.toList)) := by
  -- the text up to an offset becomes what stands in front of the place of the offset
  have hplace (k : Nat) (hk : k ≤ src.length) :
      (withLineEnd ('\r' :: tail) (src.toList.take k)).length =
        behindLines src.toList tail.length k := by
    rw [length_withLineEnd, List.length_take, String.length_toList, Nat.min_eq_left hk, behindLines]
  have hcut (k : Nat) (hk : k ≤ src.length) :
      (withLineEnd ('\r' :: tail) src.toList).length =
        behindLines src.toList tail.length k
          + (withLineEnd ('\r' :: tail) (src.toList.drop k)).length := by
    rw [← hplace k hk, ← List.length_append, ← withLineEnd_append, List.take_append_drop]
  refine ⟨?_, fun k hk => ?_, ?_⟩
  · rw [String.toList_ofList]
    refine glyphs_withLineEnd htail hcr (by decide) rfl fun k hk => ?_
    rw [String.length_toList] at hk ⊢
    rw [String.length_ofList, hcut k hk]
    rw [show src.length - (src.length - k) = k by omega]
    omega
  · rw [String.length_ofList, hcut k hk]
    omega
  · rw [String.length_ofList, hcut src.length (Nat.le_refl _), ← String.length_toList,
      List.drop_length]
    rfl

/-- The lines of a text without carriage returns may as well end in carriage returns, or in both
characters, without a difference to what the text does. With carriage returns alone everything is at
its place, so nothing at all is different. With both characters a fault that blames the text is
found further on, by as many characters as there are lines in front of it. -/
theorem lineEnds_uniform {src : String} (hcr : '\r' ∉ src.toList) :
    let returns := String.ofList (withLineEnd ['\r'] src.toList)
    let returnsAndFeeds := String.ofList (withLineEnd ['\r', '\n'] src.toList)
    let place (k : Nat) := k + (src.toList.take k).count '\n'
    ((run (.ofText src)).Same (run (.ofText returns)) ∧
      (compile (.ofText src)).Same (compile (.ofText returns))) ∧
    (run (.ofText src)).Relaid place (run (.ofText returnsAndFeeds)) ∧
      (compile (.ofText src)).Relaid place (compile (.ofText returnsAndFeeds)) := by
  intro returns returnsAndFeeds place
  have hreturns : Relayout (behindLines src.toList 0) src returns :=
    relayout_lineEnds (.inl rfl) hcr
  have hboth : Relayout (behindLines src.toList 1) src returnsAndFeeds :=
    relayout_lineEnds (.inr rfl) hcr
  have hid : behindLines src.toList 0 = id := by
    funext k
    simp [behindLines]
  have hplace : behindLines src.toList 1 = place := by
    funext k
    simp [behindLines, place]
  rw [hid] at hreturns
  rw [hplace] at hboth
  exact ⟨⟨(run_relaid hreturns).same, (compile_relaid hreturns).same⟩, run_relaid hboth,
    compile_relaid hboth⟩

/-- The second line is blank, so it is no statement; the fault is found one line further on. -/
theorem lineEnds_uniform_blank :
    '\r' ∉ "a=1\n\n!a;".toList ∧
    (run (.ofText "a=1\n\n!a;")).Same (run (.ofText "a=1\r\r!a;")) ∧
    (run (.ofText "a=1\n\n!a;")).Relaid (fun k => k + ("a=1\n\n!a;".toList.take k).count '\n')
      (run (.ofText "a=1\r\n\r\n!a;")) := by
  have hcr : '\r' ∉ "a=1\n\n!a;".toList := by decide
  have hreturns : String.ofList (withLineEnd ['\r'] "a=1\n\n!a;".toList) = "a=1\r\r!a;" := by decide
  have hboth : String.ofList (withLineEnd ['\r', '\n'] "a=1\n\n!a;".toList) =
      "a=1\r\n\r\n!a;" := by decide
  obtain ⟨⟨hsame, -⟩, hrelaid, -⟩ := lineEnds_uniform hcr
  rw [hreturns] at hsame
  rw [hboth] at hrelaid
  exact ⟨hcr, hsame, hrelaid⟩

example : (run (.ofText "a=1\r\n\r\n!a;")).result = .error ⟨.expected "Name", ⟨5, 6⟩⟩ := by cbv

end OnePass
