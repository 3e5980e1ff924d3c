import OnePass.Proofs.Reading.Soundness

/-!
# Whole texts

A text is a program and a `;` with anything behind it. Work on a text starts behind its blanks, so
positions are counted from the cursor that has just requested the first character
(`Cursor.first`). A program that is spelled before the `;` does what its statements do and stops at
the `;` (`program_eq_ok`, `program_eq_error`); a program that succeeds was spelled before a `;`
(`spelled_of_program`), and since no spelling contains one (`Program.Spelled.not_mem`), that `;` is
the first of the text.
-/

namespace OnePass

/-! ## No spelling contains the sentinel -/

/-- The characters that statements are written with. Line ends and the sentinel are not among
them. -/
def isWritten (x : Char) : Bool := isBlank x || x.isAlphanum || "()=!?+-*/".toList.contains x

theorem isWritten_of_isAlpha {x : Char} (h : x.isAlpha = true) : isWritten x = true := by
  simp [isWritten, Char.isAlphanum, h]

theorem isWritten_toChar (op : Operator) : isWritten op.toChar = true := by
  cases op <;> decide

/-- Blanks may stand in a line. -/
theorem Blanks.isWritten {w : List Char} (hw : Blanks w) : ∀ x ∈ w, isWritten x = true :=
  fun x hx => by simp [OnePass.isWritten, hw x hx]

theorem Digits.isWritten {ds : List Char} (hds : Digits ds) : ∀ x ∈ ds, isWritten x = true :=
  fun x hx => by simp [OnePass.isWritten, Char.isAlphanum, hds.2 x hx]

/-- So may all characters of an expression. -/
theorem Expr.Spelled.isWritten {calls : Bool} {level : Level} {e : Expr} {s : List Char}
    (h : Expr.Spelled calls level e s) : ∀ x ∈ s, isWritten x = true := by
  induction h with
  | number hds hw => exact List.forall_mem_append.2 ⟨hds.isWritten, hw.isWritten⟩
  | var hc hw => exact List.forall_mem_cons.2 ⟨isWritten_of_isAlpha hc, hw.isWritten⟩
  | call hcalls hc hu hv hw =>
    simp only [List.forall_mem_cons, List.forall_mem_append]
    exact ⟨isWritten_of_isAlpha hc, hu.isWritten, rfl, hv.isWritten, rfl, hw.isWritten⟩
  | parens he hu hw ih =>
    simp only [List.forall_mem_cons, List.forall_mem_append]
    exact ⟨rfl, hu.isWritten, ih, rfl, hw.isWritten⟩
  | term he ih => exact ih
  | expression he ih => exact ih
  | @binary level op l r s t w hop hl hr hw ihl ihr =>
    simp only [List.forall_mem_cons, List.forall_mem_append]
    exact ⟨ihl, isWritten_toChar op, hw.isWritten, ihr⟩
  | @signed op r t w hop hr hw ih =>
    simp only [List.forall_mem_cons, List.forall_mem_append]
    exact ⟨isWritten_toChar op, hw.isWritten, ih⟩

/-- And those of a statement. -/
theorem Stmt.Spelled.isWritten {calls : Bool} {statement : Stmt} {s : List Char}
    (h : Stmt.Spelled calls statement s) : ∀ x ∈ s, isWritten x = true := by
  cases h with
  | print hc hu hw =>
    simp only [List.forall_mem_cons, List.forall_mem_append]
    exact ⟨rfl, hu.isWritten, isWritten_of_isAlpha hc, hw.isWritten⟩
  | input hc hds hu hv hw =>
    simp only [List.forall_mem_cons, List.forall_mem_append]
    exact ⟨rfl, hu.isWritten, isWritten_of_isAlpha hc, hv.isWritten, hds.isWritten, hw.isWritten⟩
  | assign hc hu hv he =>
    simp only [List.forall_mem_cons, List.forall_mem_append]
    exact ⟨isWritten_of_isAlpha hc, hu.isWritten, rfl, hv.isWritten, he.isWritten⟩

theorem Blanks.not_mem {w : List Char} (hw : Blanks w) : ';' ∉ w := fun h =>
  absurd (hw.isWritten _ h) (by decide)

/-- An expression has no `;` in it. -/
theorem Expr.Spelled.not_mem {calls : Bool} {level : Level} {e : Expr} {s : List Char}
    (h : Expr.Spelled calls level e s) : ';' ∉ s := fun hmem =>
  absurd (h.isWritten _ hmem) (by decide)

theorem Stmt.Spelled.not_mem {calls : Bool} {statement : Stmt} {s : List Char}
    (h : Stmt.Spelled calls statement s) : ';' ∉ s := fun hmem =>
  absurd (h.isWritten _ hmem) (by decide)

/-- A statement is written on one line. -/
theorem Stmt.Spelled.newline_not_mem {calls : Bool} {statement : Stmt} {s : List Char}
    (h : Stmt.Spelled calls statement s) : '\n' ∉ s := fun hmem =>
  absurd (h.isWritten _ hmem) (by decide)

/-- Nor has a line end. -/
theorem LineEnd.not_mem {e : List Char} (h : LineEnd e) : ';' ∉ e := by
  cases h with
  | none => simp
  | cr hw => simp [hw.not_mem]
  | lf hw => simp [hw.not_mem]
  | crlf hw => simp [hw.not_mem]

/-- So statements have none between them. -/
theorem Statements.Spelled.not_mem {calls : Bool} {statements : List Stmt} {s : List Char}
    (h : Statements.Spelled calls statements s) : ';' ∉ s := by
  induction h with
  | last hs he => simp [hs.not_mem, he.not_mem]
  | cons hs he hss ih => simp [hs.not_mem, he.not_mem, ih]

/-- The `;` that ends a program is the first one of the text. -/
theorem Program.Spelled.not_mem {calls : Bool} {program : List Stmt} {p : List Char}
    (h : Program.Spelled calls program p) : ';' ∉ p := by
  obtain ⟨w, t, hw, ht, rfl⟩ := h
  simp [hw.not_mem, ht.not_mem]

/-- Two cuts of a text at the first place of a character are the same. -/
theorem eq_of_append_cons {x : Char} {p p' rest rest' : List Char}
    (h : p ++ x :: rest = p' ++ x :: rest') (hp : x ∉ p) (hp' : x ∉ p') :
    p = p' ∧ rest = rest' := by
  induction p generalizing p' with
  | nil =>
    cases p' with
    | nil => exact ⟨rfl, (List.cons.inj h).2⟩
    | cons y p' =>
      rw [← (List.cons.inj h).1] at hp'
      -- one beginning ends here, so the other would have the character in it
      exact absurd List.mem_cons_self hp'
  | cons y p ih =>
    cases p' with
    | nil =>
      rw [(List.cons.inj h).1] at hp
      exact absurd List.mem_cons_self hp
    | cons y' p' =>
      obtain ⟨rfl, htail⟩ := List.cons.inj h
      obtain ⟨rfl, rfl⟩ := ih htail (fun hx => hp (List.mem_cons_of_mem _ hx))
        fun hx => hp' (List.mem_cons_of_mem _ hx)
      exact ⟨rfl, rfl⟩

/-! ## The start of a text -/

/-- The cursor that has just requested the first character of a source. -/
def Cursor.first (source : Source) : Cursor where
  look := source.next.1
  source := source.next.2

/-- Work starts behind the blanks in front of the text. -/
theorem Cursor.start_eq (source : Source) :
    Cursor.start source = (Cursor.first source).skipBlanks := rfl

/-- The first character is requested. -/
theorem Cursor.requests_first (source : Source) :
    (Cursor.first source).source.requests = source.requests + 1 := Source.requests_next source

/-- Then the whole text is still unread. -/
theorem Cursor.unread_first (source : Source) : (Cursor.first source).unread = source.toList := by
  have hhead := Source.next_fst source
  have htail := Source.toList_next source
  unfold unread first
  simp only [hhead, htail]
  cases source.toList <;> rfl

/-- The same of a text that is read as a whole. -/
theorem Cursor.unread_first_ofText (src : String) :
    (Cursor.first (.ofText src)).unread = src.toList := by
  rw [Cursor.unread_first, Source.toList_ofText]

/-- How many characters are consumed and requested at a place of a text. -/
theorem Cursor.offset_skip_first {src : String} {n : Nat} (hn : n ≤ src.toList.length) :
    ((Cursor.first (.ofText src)).skip n).offset = n ∧
      ((Cursor.first (.ofText src)).skip n).source.requests = n + 1 := by
  rw [← Cursor.unread_first_ofText] at hn
  obtain ⟨hoffset, hrequests⟩ := Cursor.offset_skip hn
  refine ⟨hoffset.trans (Nat.zero_add n), ?_⟩
  -- one request was made at the start
  rw [hrequests]
  show (Source.ofText src).next.2.requests + n = n + 1
  rw [Source.requests_next]
  show 0 + 1 + n = n + 1
  omega

/-- The cursor stands on the first `;` of a text, behind so many characters, and has requested one
character more than it has consumed. -/
structure Cursor.AtSentinel (c : Cursor) (n : Nat) (rest : List Char) : Prop where
  look : c.look = some ';'
  unread : c.unread = ';' :: rest
  offset : c.offset = n
  requests : c.source.requests = n + 1

/-- Behind the program stands its `;`. -/
theorem Cursor.atSentinel_skip {src : String} {p rest : List Char}
    (h : src.toList = p ++ ';' :: rest) :
    ((Cursor.first (.ofText src)).skip p.length).AtSentinel p.length rest := by
  have hunread : (Cursor.first (.ofText src)).unread = p ++ ';' :: rest := by
    rw [Cursor.unread_first_ofText, h]
  have hbehind := Cursor.unread_skip_append hunread
  -- positions are counted over characters that are there, so no skip runs past the end
  have hlen : p.length ≤ src.toList.length := by
    rw [h, List.length_append]
    omega
  obtain ⟨hoffset, hrequests⟩ := Cursor.offset_skip_first hlen
  exact ⟨Cursor.look_of_unread hbehind, hbehind, hoffset, hrequests⟩

namespace Grammar

variable {σ α : Type}

/-- A program that is spelled before a `;` does what its statements do, and stops at the `;`. -/
theorem program_does (m : Semantics σ α) {statements : List Stmt} {src : String}
    {p rest : List Char} (hp : Program.Spelled m.calls statements p)
    (h : src.toList = p ++ ';' :: rest) :
    ∃ n, Does (program m.timeless) (.start (.ofText src)) n (driveAll m statements) ∧
      (Cursor.start (.ofText src)).skip n = (Cursor.first (.ofText src)).skip p.length := by
  obtain ⟨w, t, hw, ht, rfl⟩ := hp
  obtain ⟨x, t', ht', hx⟩ := ht.exists_cons
  have hblank : StopsAt isBlank (t ++ ';' :: rest) := by
    rw [ht']
    exact stopsAt_cons (isBlank_of_beginsStatement hx)
  have hunread : (Cursor.first (.ofText src)).unread = w ++ (t ++ ';' :: rest) := by
    rw [Cursor.unread_first_ofText, h, List.append_assoc]
  -- work starts behind the blanks of the text, which belong to the program
  have hstart : Cursor.start (.ofText src) = (Cursor.first (.ofText src)).skip w.length := by
    rw [Cursor.start_eq, skipBlanks_of_blanks hunread hw hblank]
  have hbehind : (Cursor.start (.ofText src)).unread = t ++ ';' :: rest := by
    rw [hstart, Cursor.unread_skip_append hunread]
  refine ⟨t.length, statements_does m ht _ rest hbehind, ?_⟩
  rw [List.length_append, Cursor.skip_add, hstart]

/-- A spelled program that does well ends at its `;`. -/
theorem program_eq_ok (m : Semantics σ α) {statements : List Stmt} {src : String}
    {p rest : List Char} {state state' : σ} (hp : Program.Spelled m.calls statements p)
    (h : src.toList = p ++ ';' :: rest) (hdrive : driveAll m statements state = .ok () state') :
    program m.timeless (.start (.ofText src) state) =
      .ok () ⟨(Cursor.first (.ofText src)).skip p.length, state'⟩ := by
  obtain ⟨n, hdoes, hskip⟩ := program_does m hp h
  rw [← hskip]
  exact hdoes.eq_ok hdrive

/-- A spelled program that fails does so by a fault of the semantics. -/
theorem program_eq_error (m : Semantics σ α) {statements : List Stmt} {src : String}
    {p rest : List Char} {state state' : σ} {fault : Fault}
    (hp : Program.Spelled m.calls statements p) (h : src.toList = p ++ ';' :: rest)
    (hdrive : driveAll m statements state = .error fault state') :
    ∃ c, program m.timeless (.start (.ofText src) state) = .error fault ⟨c, state'⟩ := by
  obtain ⟨n, hdoes, -⟩ := program_does m hp h
  exact hdoes.eq_error hdrive

/-- A program that succeeds was spelled before a `;`, did what its statements do, and stopped at
the `;`. -/
theorem spelled_of_program {m : Semantics σ α} {src : String} {state : σ} {b : Unit}
    {q : Progress σ} (h : program m.timeless (.start (.ofText src) state) = .ok b q) :
    ∃ statements p rest, Program.Spelled m.calls statements p ∧
      src.toList = p ++ ';' :: rest ∧ driveAll m statements state = .ok () q.state ∧
      q.cursor = (Cursor.first (.ofText src)).skip p.length := by
  obtain ⟨statements, t, ht, hreads, hdrive, hat⟩ :=
    program_recognises m _ (Nat.le_refl _) h
  -- the blanks in front were read before the program
  obtain ⟨w, hw, hblanks⟩ := reads_skipBlanks (Cursor.first (.ofText src))
  have hall := hblanks.trans hreads
  -- the program has stopped at the sentinel
  have hlook : q.cursor.look = some ';' := by simpa [Cursor.isAt] using hat
  refine ⟨statements, w ++ t, q.cursor.advance.unread, ⟨w, t, hw, ht, rfl⟩, ?_, hdrive,
    hall.eq_skip⟩
  rw [← Cursor.unread_eq_cons hlook, ← hall.unread, Cursor.unread_first_ofText]

end Grammar

end OnePass
