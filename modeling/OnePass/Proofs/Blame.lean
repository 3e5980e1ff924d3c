import OnePass.Proofs.Acceptance
import OnePass.Proofs.Reading.Completion

/-!
# Where a text goes wrong

A text is read from left to right, and no further than it could still become a program. Under a
semantics that never fails, the fault of a text that is refused stands at the first character that
no program has there (`program_blames_first`).

Two facts about a run that fails carry this: what it has read begins a program (`begins_program`),
and a run on any text that is the same so far, with the same character behind it, fails as well
(`local_program`).
-/

namespace OnePass

/-! ## Texts that are the same from the start -/

/-- Two texts with the same beginning are alike for as many characters. -/
theorem Cursor.sameFor_first {src src' : String} {n : Nat}
    (h : src'.toList.take (n + 1) = src.toList.take (n + 1)) :
    Cursor.SameFor n (.first (.ofText src)) (.first (.ofText src')) := by
  refine ⟨rfl, ?_⟩
  rw [Cursor.unread_first_ofText, Cursor.unread_first_ofText, h]

theorem stopsAt_skipBlanks (c : Cursor) : StopsAt isBlank c.skipBlanks.unread := by
  rw [Cursor.skipBlanks, Cursor.unread_takeWhile]
  exact stopsAt_dropWhile isBlank _

/-- The blanks of the one text are those of the other. -/
theorem Cursor.SameFor.skipBlanks_eq {c c' : Cursor} {w : List Char} (h : SameFor w.length c c')
    (hw : Blanks w) (hreads : c.Reads w c.skipBlanks) : c'.skipBlanks = c'.skip w.length := by
  obtain ⟨rest', hunread', hhead⟩ := h.unread_append hreads.unread
  exact skipBlanks_of_blanks hunread' hw ((stopsAt_skipBlanks c).of_head? hhead)

namespace Grammar

variable {σ α : Type}

/-! ## A run that fails -/

/-- A run depends on the characters that it reads and on the one behind them. -/
theorem program_placed (m : Semantics σ α) (state : σ) (src : String) :
    ∃ k, k ≤ src.toList.length ∧
      ∀ src' : String, src'.toList.take (k + 1) = src.toList.take (k + 1) →
        program m.timeless (.start (.ofText src') state) =
          placed ((Cursor.first (.ofText src')).skip k)
            (program m.timeless (.start (.ofText src) state)) := by
  obtain ⟨w, hw, hblanks⟩ := reads_skipBlanks (Cursor.first (.ofText src))
  obtain ⟨n, hn, hplaced⟩ := local_program m (Cursor.start (.ofText src)) state
  rw [Cursor.start_eq] at hn
  have hlength :
      src.toList.length = w.length + (Cursor.first (.ofText src)).skipBlanks.unread.length := by
    rw [← Cursor.unread_first_ofText, hblanks.unread, List.length_append]
  refine ⟨w.length + n, by omega, fun src' hsrc' => ?_⟩
  -- the blanks in front are skipped alike in both texts, and what follows is read alike
  have hsame := Cursor.sameFor_first hsrc'
  have hstart : Cursor.start (.ofText src') = (Cursor.first (.ofText src')).skip w.length :=
    (hsame.mono (Nat.le_add_right _ n)).skipBlanks_eq hw hblanks
  have hle : w.length ≤ (Cursor.first (.ofText src)).unread.length := by
    rw [Cursor.unread_first_ofText]
    omega
  have hbehind := hsame.skip hle
  rw [← hblanks.eq_skip, ← hstart] at hbehind
  rw [Progress.start, hplaced _ hbehind, Cursor.skip_add, hstart]
  rfl

/-- A run on a text has failed at the character of index `k`: what it has read begins a program, and
every text that is the same up to this character and with it is refused. -/
structure FailsAt (m : Semantics σ α) (state : σ) (src : String) (k : Nat) (fault : Fault)
    (c : Cursor) : Prop where
  le : k ≤ src.toList.length
  cursor : c = (Cursor.first (.ofText src)).skip k
  missing : ∃ what, fault = c.missing what
  begins : ∃ u statements, Program.Spelled m.calls statements (src.toList.take k ++ u)
  refuses : ∀ src' : String, src'.toList.take (k + 1) = src.toList.take (k + 1) →
    ∀ q, program m.timeless (.start (.ofText src') state) ≠ .ok () q

/-- A run that fails does so at a place up to which the text begins a program, and beyond which it
does not. -/
theorem failsAt_of_error {m : Semantics σ α} (hm : m.NeverFails) {state : σ} {src : String}
    {fault : Fault} {q : Progress σ}
    (h : program m.timeless (.start (.ofText src) state) = .error fault q) :
    ∃ k, FailsAt m state src k fault q.cursor := by
  obtain ⟨k, hk, hplaced⟩ := program_placed m state src
  have hcursor : q.cursor = (Cursor.first (.ofText src)).skip k := by
    have hhere := cursor_of_placed (hplaced src rfl)
    rwa [h] at hhere
  refine ⟨k, hk, hcursor, blames_program hm _ _ _ h, ?_, fun src' hsrc' q' hok => ?_⟩
  · obtain ⟨w, hw, hblanks⟩ := reads_skipBlanks (Cursor.first (.ofText src))
    -- what has been read begins a program, so some text goes on from it
    have hbegins := begins_program m.timeless (.start (.ofText src) state)
    rw [h] at hbegins
    cases hbegins with
    | @error t u _ _ ht hreads =>
      obtain ⟨statements, ht⟩ := ht
      have hall := hblanks.trans hreads
      have hunread : src.toList = (w ++ t) ++ q.cursor.unread := by
        rw [← Cursor.unread_first_ofText, hall.unread]
      -- the place is counted once in characters read and once along the text
      obtain rfl : k = (w ++ t).length := by
        refine eq_of_skip_eq ?_ ?_ (hcursor.symm.trans hall.eq_skip)
        · rwa [Cursor.unread_first_ofText]
        · simp only [hall.unread, List.length_append]
          omega
      refine ⟨u, statements, w, t ++ u, hw, ht, ?_⟩
      rw [hunread, List.take_left, List.append_assoc]
  · rw [hplaced src' hsrc', h] at hok
    cases hok

/-! ## Texts that can still become programs -/

/-- The characters can be gone on from to a text that is accepted. -/
def Viable (m : Semantics σ α) (state : σ) (s : List Char) : Prop :=
  ∃ t q, program m.timeless (.start (.ofText (String.ofList (s ++ t))) state) = .ok () q

/-- The places where a text can no longer become a program. -/
def Breaks (m : Semantics σ α) (state : σ) (s : List Char) : Set Nat :=
  { k | Viable m state (s.take k) ∧ ¬ Viable m state (s.take (k + 1)) }

/-- What begins an accepted text does so with any part cut off behind. -/
theorem Viable.take {m : Semantics σ α} {state : σ} {s : List Char} (h : Viable m state s)
    (k : Nat) : Viable m state (s.take k) := by
  obtain ⟨t, q, hq⟩ := h
  refine ⟨s.drop k ++ t, q, ?_⟩
  rwa [← List.append_assoc, List.take_append_drop]

/-- A text that can go on does not break anywhere. -/
theorem Viable.not_mem_breaks {m : Semantics σ α} {state : σ} {s : List Char}
    (h : Viable m state s) (k : Nat) : k ∉ Breaks m state s := fun hk => hk.2 (h.take (k + 1))

/-- What begins a program goes on to its end and the `;` behind it. -/
theorem viable_of_spelled {m : Semantics σ α} (hm : m.NeverFails) (state : σ) {s u : List Char}
    {statements : List Stmt} (h : Program.Spelled m.calls statements (s ++ u)) :
    Viable m state s := by
  obtain ⟨w, t, hw, ht, hs⟩ := h
  obtain ⟨state', hdrive⟩ := hm.driveAll ht state
  have hsrc : (String.ofList (s ++ (u ++ [';']))).toList = (s ++ u) ++ [';'] := by
    rw [String.toList_ofList, List.append_assoc]
  exact ⟨u ++ [';'], _, program_eq_ok m ⟨w, t, hw, ht, hs⟩ hsrc hdrive⟩

/-- There is no more than one such place. -/
theorem breaks_unique {m : Semantics σ α} {state : σ} {s : List Char} {j k : Nat}
    (hj : j ∈ Breaks m state s) (hk : k ∈ Breaks m state s) : j = k := by
  have hle {j k : Nat} (hj : j ∈ Breaks m state s) (hk : k ∈ Breaks m state s) : k ≤ j := by
    by_contra hlt
    have htake := hk.1.take (j + 1)
    rw [List.take_take, Nat.min_eq_left (by omega)] at htake
    exact hj.2 htake
  exact Nat.le_antisymm (hle hk hj) (hle hj hk)

/-- There is one place at most where a text breaks, so it is the first one. -/
theorem isLeast_breaks {m : Semantics σ α} {state : σ} {s : List Char} {k : Nat}
    (h : k ∈ Breaks m state s) : IsLeast (Breaks m state s) k :=
  ⟨h, fun _ hj => (breaks_unique h hj).le⟩

/-- What was read before the fault can go on to an accepted text. -/
theorem FailsAt.viable {m : Semantics σ α} (hm : m.NeverFails) {state : σ} {src : String} {k : Nat}
    {fault : Fault} {c : Cursor} (h : FailsAt m state src k fault c) :
    Viable m state (src.toList.take k) := by
  obtain ⟨u, statements, hspelled⟩ := h.begins
  exact viable_of_spelled hm state hspelled

/-- The character at hand takes away what could still have become a program. -/
theorem FailsAt.mem_breaks {m : Semantics σ α} (hm : m.NeverFails) {state : σ} {src : String}
    {k : Nat} {fault : Fault} {c : Cursor} (h : FailsAt m state src k fault c)
    (hk : k < src.toList.length) : k ∈ Breaks m state src.toList := by
  refine ⟨h.viable hm, fun ⟨t, q, hq⟩ => h.refuses _ ?_ q hq⟩
  rw [String.toList_ofList, List.take_append_of_le_length (by rw [List.length_take]; omega),
    List.take_take, Nat.min_self]

/-- The column of a fault is where the cursor stands. -/
theorem FailsAt.cause {m : Semantics σ α} {state : σ} {src : String} {k : Nat} {fault : Fault}
    {c : Cursor} (h : FailsAt m state src k fault c) :
    (k < src.toList.length ∧ ∃ what, fault = ⟨.expected what, ⟨k, k + 1⟩⟩) ∨
      (k = src.toList.length ∧ ∃ what, fault = ⟨.endOfInput what, ⟨k, k⟩⟩) := by
  obtain ⟨what, rfl⟩ := h.missing
  have hlook : c.look = src.toList[k]? := by
    rw [h.cursor, Cursor.look_eq_head?, Cursor.unread_skip, Cursor.unread_first_ofText,
      List.head?_drop]
  have hoffset : c.offset = k := by rw [h.cursor, (Cursor.offset_skip_first h.le).1]
  -- whether a character stands at the place tells the two kinds of faults apart
  rcases Nat.lt_or_eq_of_le h.le with hk | hk
  · rw [List.getElem?_eq_getElem hk] at hlook
    refine Or.inl ⟨hk, what, ?_⟩
    simp only [Cursor.missing, Cursor.column, hlook, hoffset]
  · rw [List.getElem?_eq_none hk.ge] at hlook
    refine Or.inr ⟨hk, what, ?_⟩
    simp only [Cursor.missing, Cursor.column, hlook, hoffset]

/-- A run that fails at the end of the text has met no sentinel. -/
theorem FailsAt.not_mem {m : Semantics σ α} {state : σ} {src : String} {fault : Fault} {c : Cursor}
    (h : FailsAt m state src src.toList.length fault c) : ';' ∉ src.toList := by
  obtain ⟨u, statements, hspelled⟩ := h.begins
  rw [List.take_length] at hspelled
  exact fun hmem => hspelled.not_mem (List.mem_append_left u hmem)

/-- A text that is refused breaks at the fault, or ends there while it could still have become a
program. -/
theorem breaks_or_ends {m : Semantics σ α} (hm : m.NeverFails) {state : σ} {src : String}
    {fault : Fault} {q : Progress σ}
    (h : program m.timeless (.start (.ofText src) state) = .error fault q) :
    (∃ k ∈ Breaks m state src.toList, ∃ what, fault = ⟨.expected what, ⟨k, k + 1⟩⟩) ∨
      (Viable m state src.toList ∧ ';' ∉ src.toList) ∧
        ∃ what, fault = ⟨.endOfInput what, ⟨src.toList.length, src.toList.length⟩⟩ := by
  obtain ⟨k, hk⟩ := failsAt_of_error hm h
  rcases hk.cause with ⟨hlt, hexpected⟩ | ⟨rfl, hend⟩
  · exact Or.inl ⟨k, hk.mem_breaks hm hlt, hexpected⟩
  · have hviable := hk.viable hm
    rw [List.take_length] at hviable
    exact Or.inr ⟨⟨hviable, hk.not_mem⟩, hend⟩

/-- A text that is accepted needs nothing behind it. -/
theorem viable_of_ok {m : Semantics σ α} {state : σ} {src : String} {q : Progress σ}
    (h : program m.timeless (.start (.ofText src) state) = .ok () q) :
    Viable m state src.toList :=
  ⟨[], q, by rwa [List.append_nil, String.ofList_toList]⟩

theorem mem_of_ok {m : Semantics σ α} {state : σ} {src : String} {q : Progress σ}
    (h : program m.timeless (.start (.ofText src) state) = .ok () q) : ';' ∈ src.toList := by
  obtain ⟨-, p, rest, -, hsrc, -, -⟩ := spelled_of_program h
  rw [hsrc]
  exact List.mem_append_right p List.mem_cons_self

/-- Under a semantics that never fails, the fault of a text stands at the first character with which
no program begins like the text, or, if there is no such character and no `;`, at the end. The
cursor is left there: the character has not been consumed, and none behind it was requested. -/
theorem program_blames_first (m : Semantics σ α) (hm : m.NeverFails) (state : σ) (src : String) :
    (∀ k, (∃ what q, program m.timeless (.start (.ofText src) state) =
        .error ⟨.expected what, ⟨k, k + 1⟩⟩ q) ↔ IsLeast (Breaks m state src.toList) k) ∧
    ((∃ what q, program m.timeless (.start (.ofText src) state) =
        .error ⟨.endOfInput what, ⟨src.toList.length, src.toList.length⟩⟩ q) ↔
      Viable m state src.toList ∧ ';' ∉ src.toList) ∧
    ∀ fault q, program m.timeless (.start (.ofText src) state) = .error fault q →
      fault.column = q.cursor.column ∧
      q.cursor.unread = src.toList.drop fault.column.first ∧
      q.cursor.source.requests = fault.column.first + 1 := by
  refine ⟨fun k => ⟨?_, fun hleast => ?_⟩, ⟨?_, fun hends => ?_⟩, fun fault q h => ?_⟩
  · rintro ⟨what, q, h⟩
    rcases breaks_or_ends hm h with ⟨j, hj, what', hfault⟩ | ⟨-, what', hfault⟩
    · cases hfault
      exact isLeast_breaks hj
    · cases hfault
  · cases h : program m.timeless (.start (.ofText src) state) with
    | ok _ q => exact absurd hleast.1 ((viable_of_ok h).not_mem_breaks k)
    | error fault q =>
      rcases breaks_or_ends hm h with ⟨j, hj, what, rfl⟩ | ⟨hends, -⟩
      · obtain rfl := breaks_unique hleast.1 hj
        exact ⟨what, q, rfl⟩
      · exact absurd hleast.1 (hends.1.not_mem_breaks k)
  · rintro ⟨what, q, h⟩
    rcases breaks_or_ends hm h with ⟨j, hj, what', hfault⟩ | ⟨hends, -⟩
    · cases hfault
    · exact hends
  · cases h : program m.timeless (.start (.ofText src) state) with
    | ok _ q => exact absurd (mem_of_ok h) hends.2
    | error fault q =>
      rcases breaks_or_ends hm h with ⟨j, hj, -⟩ | ⟨-, what, rfl⟩
      · exact absurd hj (hends.1.not_mem_breaks j)
      · exact ⟨what, q, rfl⟩
  · -- all that is said of the cursor follows from its place
    obtain ⟨k, hk⟩ := failsAt_of_error hm h
    have hcolumn : fault.column = q.cursor.column := by
      obtain ⟨what, rfl⟩ := hk.missing
      rfl
    have hfirst : fault.column.first = k := by
      rcases hk.cause with ⟨-, what, rfl⟩ | ⟨-, what, rfl⟩ <;> rfl
    refine ⟨hcolumn, ?_, ?_⟩
    · rw [hfirst, hk.cursor, Cursor.unread_skip, Cursor.unread_first_ofText]
    · rw [hfirst, hk.cursor, (Cursor.offset_skip_first hk.le).2]

/-- Where there are no calls, a `(` behind a name is blamed; where there are, the text may go on
behind it. -/
theorem program_blames_first_call :
    (Trace.semantics .absent).NeverFails ∧ (Trace.semantics .noted).NeverFails ∧
      IsLeast (Breaks (Trace.semantics .absent) {} "a = f (".toList) 6 ∧
      Viable (Trace.semantics .noted) {} "a = f (".toList := by
  have habsent := Trace.neverFails (by decide : Trace.Calls.absent ≠ .refused)
  have hnoted := Trace.neverFails (by decide : Trace.Calls.noted ≠ .refused)
  refine ⟨habsent, hnoted, ?_, ?_⟩
  · exact ((program_blames_first _ habsent {} "a = f (").1 6).1 ⟨_, _, by cbv⟩
  · exact ((program_blames_first _ hnoted {} "a = f (").2.1.1 ⟨_, _, by cbv⟩).1

end Grammar

end OnePass
