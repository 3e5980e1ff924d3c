import OnePass.Proofs.Seam

/-!
# Lines that are delivered one by one

The characters of some lines are the same whether the lines are delivered one by one or as one text.
How many lines were asked for says where the cursor stands: the line that was asked for last is the
one that holds the character at hand, or there is no character any more and the end was reported
(`asked_skip`). So reading asks for no line as long as it stays within one (`Holds.eq_of_reads`).
-/

namespace OnePass

/-! ## The text of lines -/

/-- The text of lines, with a line feed behind each. -/
def joined (lines : List String) : String := String.join (lines.map (· ++ "\n"))

variable {lines : List String}

theorem joined_append (xs ys : List String) : joined (xs ++ ys) = joined xs ++ joined ys := by
  rw [joined, List.map_append, String.join_append]
  rfl

/-- The first line with its line feed, then the rest. -/
theorem toList_joined_cons (line : String) (lines : List String) :
    (joined (line :: lines)).toList = Source.delivered line.toList ++ (joined lines).toList := by
  rw [← List.singleton_append, joined_append, String.toList_append]
  simp [joined, Source.delivered]

/-- What the source delivers is the text. -/
theorem toList_ofLines (lines : List String) :
    (Source.ofLines lines).toList = (joined lines).toList := by
  induction lines with
  | nil => rfl
  | cons line lines ih =>
    rw [toList_joined_cons, ← ih]
    simp [Source.delivered]

/-- What is in a line is in the text. -/
theorem mem_joined {line : String} {x : Char} (h : line ∈ lines) (hx : x ∈ line.toList) :
    x ∈ (joined lines).toList := by
  rw [← toList_ofLines, Source.toList_ofLines, List.mem_flatMap]
  exact ⟨line, h, List.mem_append_left _ hx⟩

/-- The characters of a line as they are delivered; there are none behind the last line. -/
def lineAt (lines : List String) (number : Nat) : List Char :=
  (lines[number]?).elim [] fun line => Source.delivered line.toList

theorem lineAt_of_lt {number : Nat} (h : number < lines.length) :
    lineAt lines number = Source.delivered lines[number].toList := by
  rw [lineAt, List.getElem?_eq_getElem h, Option.elim_some]

theorem lineAt_length : lineAt lines lines.length = [] := by
  rw [lineAt, List.getElem?_eq_none_iff.2 le_rfl, Option.elim_none]

/-- The first lines with one more. -/
theorem toList_joined_take_succ (lines : List String) (number : Nat) :
    (joined (lines.take (number + 1))).toList =
      (joined (lines.take number)).toList ++ lineAt lines number := by
  rw [List.take_add_one, joined_append, String.toList_append, lineAt]
  cases lines[number]? with
  | none => rfl
  | some line =>
    have hone := toList_joined_cons line []
    rw [show (joined []).toList = [] from rfl, List.append_nil] at hone
    rw [Option.toList_some, Option.elim_some, hone]

/-- A text is cut between two lines. -/
theorem toList_joined_take_append_drop (lines : List String) (number : Nat) :
    (joined lines).toList =
      (joined (lines.take number)).toList ++ (joined (lines.drop number)).toList := by
  rw [← String.toList_append, ← joined_append, List.take_append_drop]

/-- The first lines are no longer than all of them. -/
theorem length_joined_take_le (lines : List String) (number : Nat) :
    (joined (lines.take number)).toList.length ≤ (joined lines).toList.length := by
  rw [toList_joined_take_append_drop lines number, List.length_append]
  exact Nat.le_add_right _ _

/-- More lines are no shorter. -/
theorem length_joined_take_mono (lines : List String) {number k : Nat} (h : number ≤ k) :
    (joined (lines.take number)).toList.length ≤ (joined (lines.take k)).toList.length := by
  have hle := length_joined_take_le (lines.take k) number
  rwa [List.take_take, Nat.min_eq_left h] at hle

/-- Some lines are complete ones. -/
theorem lines_joined_take {number : Nat} (h : number < lines.length) :
    Lines (joined (lines.take (number + 1))).toList := by
  rw [Lines, toList_joined_take_succ, lineAt_of_lt h, Source.delivered, ← List.append_assoc,
    List.getLast?_concat]

/-! ## Where a character stands -/

/-- The line holds the character at the offset. Behind the last line it is the end that stands
there. -/
structure Holds (lines : List String) (number offset : Nat) : Prop where
  le : number ≤ lines.length
  begins : (joined (lines.take number)).toList.length ≤ offset
  ends : number < lines.length → offset < (joined (lines.take (number + 1))).toList.length

namespace Holds

variable {number k offset offset' : Nat}

/-- A later place is on the same line or a later one. -/
theorem mono (h : Holds lines number offset) (h' : Holds lines k offset') (hle : offset ≤ offset') :
    number ≤ k := by
  by_contra hnot
  have hlt : k + 1 ≤ number := Nat.lt_of_not_le hnot
  have hbefore := length_joined_take_mono lines hlt
  have hbegins := h.begins
  have hends := h'.ends (Nat.lt_of_lt_of_le hlt h.le)
  omega

/-- What stands before the end of a line stands in this line or before. -/
theorem lt_of_lt (h : Holds lines number offset)
    (hlt : offset < (joined (lines.take k)).toList.length) : number < k := by
  by_contra hle
  have hbefore := length_joined_take_mono lines (Nat.le_of_not_lt hle)
  have hbegins := h.begins
  omega

/-- What stands behind some lines stands in none of them. -/
theorem le_of_le (h : Holds lines number offset) (hk : k ≤ lines.length)
    (hle : (joined (lines.take k)).toList.length ≤ offset) : k ≤ number := by
  by_contra hnot
  have hlt : number + 1 ≤ k := Nat.lt_of_not_le hnot
  have hbefore := length_joined_take_mono lines hlt
  have hends := h.ends (Nat.lt_of_lt_of_le hlt hk)
  omega

/-- A text without a line feed ends in the line that it begins in. -/
theorem eq_of_reads {t rest : List Char} (h : Holds lines number offset)
    (h' : Holds lines k (offset + t.length)) (ht : (joined lines).toList.drop offset = t ++ rest)
    (hnot : '\n' ∉ t) : number = k := by
  refine Nat.le_antisymm (h.mono h' (Nat.le_add_right _ _)) ?_
  rcases Nat.lt_or_ge number lines.length with hlt | hge
  · have hends := h.ends hlt
    refine Nat.le_of_lt_succ (h'.lt_of_lt (k := number + 1) ?_)
    rw [toList_joined_take_append_drop lines (number + 1),
      List.drop_append_of_le_length hends.le] at ht
    have hline := length_lt_of_not_mem ht ((lines_joined_take hlt).drop hends).mem hnot
    rw [List.length_drop] at hline
    omega
  · exact h'.le.trans hge

/-- The line that holds the first such character of the text is the first one that has it. -/
theorem exists_line {x : Char} {t rest : List Char} (h : Holds lines number t.length)
    (ht : (joined lines).toList = t ++ x :: rest) (hx : x ≠ '\n') (hnot : x ∉ t) :
    ∃ line, lines[number]? = some line ∧ x ∈ line.toList ∧
      ∀ earlier ∈ lines.take number, x ∉ earlier.toList := by
  -- behind the last line there would be no character left
  have hlt : number < lines.length := by
    refine Nat.lt_of_le_of_ne h.le ?_
    rintro rfl
    have hbegins := h.begins
    rw [List.take_length, ht, List.length_append, List.length_cons] at hbegins
    omega
  refine ⟨lines[number], List.getElem?_eq_getElem hlt, ?_, fun earlier hearlier hmem => hnot ?_⟩
  · have hcut := toList_joined_take_append_drop lines (number + 1)
    have hdrop := congrArg (List.drop t.length) (ht.symm.trans hcut)
    rw [List.drop_left, List.drop_append_of_le_length (h.ends hlt).le, toList_joined_take_succ,
      List.drop_append, List.drop_eq_nil_of_le h.begins, List.nil_append] at hdrop
    -- the place is within the line, so its characters from there on are not used up
    have hbegins := h.begins
    have hends := h.ends hlt
    rw [toList_joined_take_succ, List.length_append] at hends
    cases hbehind : (lineAt lines number).drop
        (t.length - (joined (lines.take number)).toList.length) with
    | nil =>
      rw [List.drop_eq_nil_iff] at hbehind
      omega
    | cons y ys =>
      rw [hbehind] at hdrop
      obtain ⟨rfl, -⟩ := List.cons.inj hdrop
      have hmem : x ∈ lineAt lines number :=
        List.mem_of_mem_drop (hbehind ▸ List.mem_cons_self)
      rw [lineAt_of_lt hlt] at hmem
      rcases List.mem_append.1 hmem with hmem | hmem
      · exact hmem
      · exact absurd (List.mem_singleton.1 hmem) hx
  · have hbefore : (joined (lines.take number)).toList <+: (joined lines).toList :=
      ⟨_, (toList_joined_take_append_drop lines number).symm⟩
    -- the lines before this one end in front of the character
    have hwithin : (joined (lines.take number)).toList <+: t :=
      List.prefix_of_prefix_length_le hbefore ⟨_, ht.symm⟩ h.begins
    exact hwithin.subset (mem_joined hearlier hmem)

end Holds

/-! ## The lines asked for -/

/-- The characters at hand: the one that the cursor stands on, and what is left of its line. -/
def Cursor.held (c : Cursor) : List Char := c.look.toList ++ c.source.ready

/-- The cursor stands in the line that was asked for last. -/
structure Cursor.InLine (lines : List String) (number : Nat) (c : Cursor) : Prop where
  le : number ≤ lines.length
  asked : c.source.asked = number + 1
  later : c.source.later = (lines.drop (number + 1)).map String.toList
  held : c.held.length ≤ (lineAt lines number).length
  ended : c.look = none → number = lines.length

namespace Cursor.InLine

variable {number : Nat} {c : Cursor}

/-- With a character at hand the line is one of the lines. -/
theorem lt_of_look (h : InLine lines number c) {x : Char} (hx : c.look = some x) :
    number < lines.length := by
  refine Nat.lt_of_le_of_ne h.le ?_
  rintro rfl
  have hheld := h.held
  rw [lineAt_length, Cursor.held, hx] at hheld
  exact absurd hheld (Nat.not_succ_le_zero _)

/-- What is not consumed are the characters at hand and the lines not asked for. -/
theorem length_unread (h : InLine lines number c) :
    c.unread.length = c.held.length + (joined (lines.drop (number + 1))).toList.length := by
  cases hlook : c.look with
  | none =>
    obtain rfl := h.ended hlook
    have hheld := h.held
    rw [lineAt_length] at hheld
    rw [Nat.le_zero.1 hheld, List.drop_eq_nil_of_le (Nat.le_succ _), unread, hlook]
    rfl
  | some x =>
    have hlater : c.source.later.flatMap Source.delivered =
        (joined (lines.drop (number + 1))).toList := by
      rw [h.later, ← toList_ofLines]
      rfl
    simp only [unread, Cursor.held, hlook, Source.toList, hlater]
    simp
    omega

/-- The line that the cursor stands in holds the character at hand. -/
theorem holds (h : InLine lines number c) {offset : Nat}
    (hunread : c.unread = (joined lines).toList.drop offset)
    (hoffset : offset ≤ (joined lines).toList.length) : Holds lines number offset := by
  have hlength := h.length_unread
  have hheld := h.held
  have htext := congrArg List.length (toList_joined_take_append_drop lines (number + 1))
  have hnext := congrArg List.length (toList_joined_take_succ lines number)
  rw [hunread, List.length_drop] at hlength
  rw [List.length_append] at htext hnext
  refine ⟨h.le, by omega, fun hlt => ?_⟩
  have hpos : 0 < c.held.length := by
    cases hlook : c.look with
    | none => exact absurd (h.ended hlook) hlt.ne
    | some x => simp [Cursor.held, hlook]
  omega

/-- Where the line at hand is used up, the next one is asked for. -/
theorem of_next {source : Source} (hle : number ≤ lines.length) (hready : source.ready = [])
    (hasked : source.asked = number)
    (hlater : source.later = (lines.drop number).map String.toList) (offset : Nat) :
    InLine lines number { look := source.next.1, offset, source := source.next.2 } := by
  obtain ⟨ready, later, requests, asked⟩ := source
  obtain rfl : ready = [] := hready
  obtain rfl : asked = number := hasked
  obtain rfl : later = (lines.drop asked).map String.toList := hlater
  rcases Nat.lt_or_ge asked lines.length with hlt | hge
  · rw [List.drop_eq_getElem_cons hlt, List.map_cons]
    refine ⟨hle, rfl, rfl, ?_, fun hlook => ?_⟩
    · rw [lineAt_of_lt hlt]
      show (((Source.delivered lines[asked].toList).head?).toList ++
        (Source.delivered lines[asked].toList).tail).length ≤ _
      cases Source.delivered lines[asked].toList <;> exact le_rfl
    · exact absurd (List.head?_eq_none_iff.1 hlook) (List.append_ne_nil_of_right_ne_nil _ (by simp))
  · -- there is no line any more, and what is reported is the end
    obtain rfl := Nat.le_antisymm hle hge
    rw [List.drop_length]
    refine ⟨le_rfl, rfl, ?_, Nat.zero_le _, fun _ => rfl⟩
    rw [List.drop_eq_nil_of_le (Nat.le_succ _)]
    rfl

theorem first (lines : List String) : InLine lines 0 (.first (.ofLines lines)) :=
  of_next (Nat.zero_le _) rfl rfl rfl 0

/-- To advance stays on the line, or asks for the next one. -/
theorem advance (h : InLine lines number c) : ∃ k, InLine lines k c.advance := by
  cases hlook : c.look with
  | none => exact ⟨number, by rwa [Cursor.advance, hlook]⟩
  | some x =>
    rw [Cursor.advance, hlook]
    cases hready : c.source.ready with
    -- the line is used up, so the next one is asked for
    | nil =>
      exact ⟨number + 1, of_next (h.lt_of_look hlook) hready h.asked h.later _⟩
    -- the line has more characters, and nothing is asked for
    | cons y rest =>
      have hnext : c.source.next =
          (some y, { c.source with ready := rest, requests := c.source.requests + 1 }) := by
        unfold Source.next
        rw [hready]
      have hheld := h.held
      simp only [Cursor.held, hlook, hready] at hheld
      refine ⟨number, h.le, ?_, ?_, ?_, ?_⟩
      · rw [hnext]; exact h.asked
      · rw [hnext]; exact h.later
      · simp only [hnext, Cursor.held]
        exact (Nat.le_succ _).trans hheld
      · rw [hnext]
        intro hnone
        cases hnone

theorem skip (h : InLine lines number c) (n : Nat) : ∃ k, InLine lines k (c.skip n) := by
  induction n generalizing c number with
  | zero => exact ⟨number, h⟩
  | succ n ih =>
    obtain ⟨k, hk⟩ := h.advance
    exact ih hk

end Cursor.InLine

/-- Whatever was read, the line asked for last is the one that holds the character at hand. -/
theorem asked_skip {offset : Nat} (hoffset : offset ≤ (joined lines).toList.length) :
    ∃ number, Holds lines number offset ∧
      ((Cursor.first (.ofLines lines)).skip offset).source.asked = number + 1 := by
  obtain ⟨number, h⟩ := (Cursor.InLine.first lines).skip offset
  refine ⟨number, h.holds ?_ hoffset, h.asked⟩
  rw [Cursor.unread_skip, Cursor.unread_first, toList_ofLines]

/-- As long as some lines are not read, no line behind them was asked for. -/
theorem asked_le_of_lt {number offset : Nat}
    (h : offset < (joined (lines.take number)).toList.length) :
    ((Cursor.first (.ofLines lines)).skip offset).source.asked ≤ number := by
  obtain ⟨k, hk, hasked⟩ := asked_skip (h.le.trans (length_joined_take_le lines number))
  rw [hasked]
  exact hk.lt_of_lt h

/-- Where some lines were read, the one behind them was asked for. -/
theorem lt_asked {number : Nat} (h : number ≤ lines.length) :
    number < ((Cursor.first (.ofLines lines)).skip
      (joined (lines.take number)).toList.length).source.asked := by
  obtain ⟨k, hk, hasked⟩ := asked_skip (length_joined_take_le lines number)
  rw [hasked]
  exact Nat.lt_succ_of_le (hk.le_of_le h le_rfl)

end OnePass
