import Mathlib.Order.Bounds.Defs
import OnePass.Proofs.Blame
import OnePass.Proofs.Divergence

/-!
# The first call of a text

A call is opened by a `(` behind a name that is an operand (`OpensCall`). A run without calls that
has parted from the one with calls stands at the first such `(` of the text and blames it
(`same_or_stops`): it is one, because that is where the runs part, and there is none before it,
because what the run without calls has read begins a program of the language without calls, in whose
texts no `(` stands behind a name (`Statements.Spelled.calm`).
-/

namespace OnePass

/-- At the place there is a `(`, behind a name that is an operand. -/
def OpensCall (text : List Char) (k : Nat) : Prop :=
  text[k]? = some '(' ∧ text.take k ∈ Grammar.operandNames

/-! ## Texts in which no parenthesis stands behind a name -/

/-- Reads a character of a text in which no `(` stands behind a name. The state says whether the
last character was a letter, leaving out blanks. -/
def watchName (named : Bool) (c : Char) : Option Bool :=
  if c = '(' && named then none
  else if isBlank c then some named
  else some c.isAlpha

/-- In the text no `(` stands behind a name. The states are those before and behind it. -/
def Calm (named : Bool) (s : List Char) (named' : Bool) : Prop :=
  s.foldlM watchName named = some named'

theorem Calm.nil (named : Bool) : Calm named [] named := rfl

/-- Two calm texts make one. -/
theorem Calm.append {b b' b'' : Bool} {s t : List Char} (hs : Calm b s b') (ht : Calm b' t b'') :
    Calm b (s ++ t) b'' := by
  rw [Calm, List.foldlM_append, show s.foldlM watchName b = some b' from hs]
  exact ht

/-- One character, then the rest. -/
theorem Calm.cons {b b' b'' : Bool} {c : Char} {s : List Char} (hc : watchName b c = some b')
    (hs : Calm b' s b'') : Calm b (c :: s) b'' := by
  rw [Calm, List.foldlM_cons, hc]
  exact hs

/-- A calm text is calm up to every place in it. -/
theorem Calm.of_append {b b'' : Bool} {s t : List Char} (h : Calm b (s ++ t) b'') :
    ∃ b', Calm b s b' ∧ Calm b' t b'' := by
  rw [Calm, List.foldlM_append] at h
  exact Option.bind_eq_some_iff.1 h

/-- Blanks change nothing. -/
theorem calm_blanks {w : List Char} (hw : Blanks w) (b : Bool) : Calm b w b := by
  induction w with
  | nil => exact .nil b
  | cons c w ih =>
    obtain ⟨hc, hw⟩ := List.forall_mem_cons.1 hw
    have hparenthesis : c ≠ '(' := by
      rintro rfl
      exact absurd hc (by decide)
    refine .cons ?_ (ih hw)
    simp [watchName, hparenthesis, hc]

theorem watchName_toChar (op : Operator) (b : Bool) : watchName b op.toChar = some false := by
  cases op <;> cases b <;> rfl

/-- A letter is a name, whatever is in front. -/
theorem watchName_letter {c : Char} (hc : c.isAlpha = true) (b : Bool) :
    watchName b c = some true := by
  have hparenthesis : c ≠ '(' := Grammar.ne_of_class hc rfl
  have hblank : isBlank c = false := Grammar.isBlank_of_beginsFactor (by simp [beginsFactor, hc])
  simp [watchName, hparenthesis, hblank, hc]

/-- A digit ends a name. -/
theorem watchName_digit {d : Char} (hd : d.isDigit = true) (b : Bool) :
    watchName b d = some false := by
  have hparenthesis : d ≠ '(' := Grammar.ne_of_class hd rfl
  have hblank : isBlank d = false := Grammar.isBlank_of_beginsFactor (by simp [beginsFactor, hd])
  simp [watchName, hparenthesis, hblank, Grammar.isAlpha_of_isDigit hd]

/-- A name with blanks behind it is watched for a `(`. -/
theorem calm_letter {c : Char} {w : List Char} (hc : c.isAlpha = true) (hw : Blanks w) (b : Bool) :
    Calm b (c :: w) true := .cons (watchName_letter hc b) (calm_blanks hw true)

/-- Digits are calm. -/
theorem calm_digits {ds : List Char} (hds : ∀ d ∈ ds, d.isDigit = true) (b : Bool) :
    ∃ b', Calm b ds b' := by
  induction ds generalizing b with
  | nil => exact ⟨b, .nil b⟩
  | cons d ds ih =>
    obtain ⟨hd, hds⟩ := List.forall_mem_cons.1 hds
    obtain ⟨b', hb'⟩ := ih hds false
    exact ⟨b', .cons (watchName_digit hd b) hb'⟩

/-- Behind what opens an operand, an expression without calls is calm. -/
theorem Expr.Spelled.calm {level : Level} {e : Expr} {s : List Char}
    (h : Expr.Spelled false level e s) : ∃ b, Calm false s b := by
  induction h with
  | @number ds w hds hw =>
    obtain ⟨b, hb⟩ := calm_digits hds.2 false
    exact ⟨b, hb.append (calm_blanks hw b)⟩
  | var hc hw => exact ⟨true, calm_letter hc hw false⟩
  | call hcalls => cases hcalls
  | parens he hu hw ih =>
    obtain ⟨b, hb⟩ := ih
    -- the `)` is not a name, so a `(` may follow it
    have hclose : watchName b ')' = some false := by cases b <;> rfl
    refine ⟨false, .cons rfl ((calm_blanks hu false).append ?_)⟩
    exact hb.append (.cons hclose (calm_blanks hw false))
  | term he ih => exact ih
  | expression he ih => exact ih
  | @binary level op l r s t w hop hl hr hw ihl ihr =>
    obtain ⟨b, hb⟩ := ihl
    obtain ⟨b', hb'⟩ := ihr
    exact ⟨b', hb.append (.cons (watchName_toChar op b) ((calm_blanks hw false).append hb'))⟩
  | @signed op r t w hop hr hw ih =>
    obtain ⟨b, hb⟩ := ih
    exact ⟨b, .cons (watchName_toChar op false) ((calm_blanks hw false).append hb)⟩

/-- A statement without calls is calm, with a name in front or without. -/
theorem Stmt.Spelled.calm {statement : Stmt} {s : List Char} (h : Stmt.Spelled false statement s)
    (b : Bool) : ∃ b', Calm b s b' := by
  cases h with
  | print hc hu hw =>
    have hmark : watchName b '!' = some false := by cases b <;> rfl
    exact ⟨true, .cons hmark ((calm_blanks hu false).append (calm_letter hc hw false))⟩
  | @input c ds u v w hc hds hu hv hw =>
    obtain ⟨b', hb'⟩ := calm_digits hds.2 true
    have hmark : watchName b '?' = some false := by cases b <;> rfl
    refine ⟨b', .cons hmark ((calm_blanks hu false).append ?_)⟩
    exact (calm_letter hc hv false).append (hb'.append (calm_blanks hw b'))
  | @assign c e s u v hc hu hv he =>
    obtain ⟨b', hb'⟩ := he.calm
    refine ⟨b', (calm_letter hc hu b).append (.cons rfl ?_)⟩
    exact (calm_blanks hv false).append hb'

theorem LineEnd.calm {e : List Char} (h : LineEnd e) (b : Bool) : ∃ b', Calm b e b' := by
  cases h with
  | none => exact ⟨b, .nil b⟩
  | cr hw => exact ⟨false, .cons (by cases b <;> rfl) (calm_blanks hw false)⟩
  | lf hw => exact ⟨false, .cons (by cases b <;> rfl) (calm_blanks hw false)⟩
  | crlf hw =>
    have hlf : Calm false ['\n'] false := rfl
    exact ⟨false, .cons (by cases b <;> rfl) (hlf.append (calm_blanks hw false))⟩

/-- No `(` stands behind a name in statements without calls. -/
theorem Statements.Spelled.calm {statements : List Stmt} {s : List Char}
    (h : Statements.Spelled false statements s) (b : Bool) : ∃ b', Calm b s b' := by
  induction h generalizing b with
  | last hs he =>
    obtain ⟨b₁, h₁⟩ := hs.calm b
    obtain ⟨b₂, h₂⟩ := he.calm b₁
    exact ⟨b₂, h₁.append h₂⟩
  | cons hs he hss ih =>
    obtain ⟨b₁, h₁⟩ := hs.calm b
    obtain ⟨b₂, h₂⟩ := he.calm b₁
    obtain ⟨b₃, h₃⟩ := ih b₂
    exact ⟨b₃, h₁.append (h₂.append h₃)⟩

/-- A calm text opens no call. -/
theorem Calm.not_opensCall {b b' : Bool} {s : List Char} (h : Calm b s b') (k : Nat) :
    ¬ OpensCall s k := by
  rintro ⟨hk, t, c, v, _, -, -, ⟨x, w, hx, hw, rfl⟩, htake⟩
  obtain ⟨hlt, hopen⟩ := List.getElem?_eq_some_iff.1 hk
  have hdrop : s.drop k = '(' :: s.drop (k + 1) := by rw [List.drop_eq_getElem_cons hlt, hopen]
  have hname : s.take k = t ++ c :: v ++ x :: w := by
    rw [htake, List.append_assoc, List.cons_append]
  rw [← List.take_append_drop k s, hdrop, hname] at h
  obtain ⟨b₂, hname, hbehind⟩ := h.of_append
  obtain ⟨b₁, -, hname⟩ := hname.of_append
  -- the letter leaves a state in which no `(` is read
  obtain rfl : true = b₂ := Option.some.inj ((calm_letter hx hw b₁).symm.trans hname)
  cases hbehind

/-! ## Two runs on a text -/

namespace Grammar

variable {σ α : Type} {m : Semantics σ α}

/-- A run without calls that fails at a `(` behind a name which is an operand has come to the first
such `(`, and blames it. -/
theorem blames_first_call (hcalls : m.calls = false) (hm : m.NeverFails) {src : String} {state : σ}
    {fault : Fault} {q : Progress σ}
    (h : program m.timeless (.start (.ofText src) state) = .error fault q) {s u : List Char}
    (hs : s ∈ operandNames) (hsrc : src.toList = s ++ '(' :: u)
    (hcursor : q.cursor = (Cursor.first (.ofText src)).skip s.length) :
    IsLeast { k | OpensCall src.toList k } s.length ∧
      ∃ what, fault = ⟨.expected what, ⟨s.length, s.length + 1⟩⟩ := by
  have hlt : s.length < src.toList.length := by
    rw [hsrc, List.length_append, List.length_cons]
    omega
  have htake : src.toList.take s.length = s := by rw [hsrc, List.take_left]
  obtain ⟨k, hk⟩ := failsAt_of_error hm h
  obtain rfl : k = s.length := by
    refine eq_of_skip_eq ?_ ?_ (hk.cursor.symm.trans hcursor)
    · rw [Cursor.unread_first_ofText]
      exact hk.le
    · rw [Cursor.unread_first_ofText]
      exact hlt.le
  refine ⟨⟨⟨?_, ?_⟩, fun j hj => ?_⟩, ?_⟩
  · rw [hsrc, List.getElem?_append_right (Nat.le_refl _), Nat.sub_self, List.getElem?_cons_zero]
  · rwa [htake]
  · -- what was read before the fault begins a program, where there is no such place
    by_contra hbefore
    have hbefore : j < s.length := Nat.lt_of_not_le hbefore
    obtain ⟨v, statements, w, t, hw, ht, hwt⟩ := hk.begins
    rw [hcalls] at ht
    obtain ⟨b, hb⟩ := ht.calm false
    have hcalm : Calm false (w ++ t) b := (calm_blanks hw false).append hb
    rw [← hwt, htake] at hcalm
    obtain ⟨b', hs, -⟩ := hcalm.of_append
    refine hs.not_opensCall j ⟨?_, ?_⟩
    · rw [← htake, List.getElem?_take_of_lt hbefore]
      exact hj.1
    · rw [← htake, List.take_take, Nat.min_eq_left hbefore.le]
      exact hj.2
  · rcases hk.cause with ⟨-, hexpected⟩ | ⟨hend, -⟩
    · exact hexpected
    · omega

/-- A run that has come to a `(` has not succeeded. -/
theorem not_ok_of_parenthesis {src : String} {state : σ} {b : Unit} {q : Progress σ}
    (h : program m.timeless (.start (.ofText src) state) = .ok b q) {s u : List Char}
    (hsrc : src.toList = s ++ '(' :: u)
    (hcursor : q.cursor = (Cursor.first (.ofText src)).skip s.length) : False := by
  obtain ⟨-, p, rest, -, hsrc', -, hcursor'⟩ := spelled_of_program h
  have hlength : p.length = s.length := by
    refine eq_of_skip_eq ?_ ?_ (hcursor'.symm.trans hcursor)
    · rw [Cursor.unread_first_ofText, hsrc', List.length_append]
      exact Nat.le_add_right _ _
    · rw [Cursor.unread_first_ofText, hsrc, List.length_append]
      exact Nat.le_add_right _ _
  cases (List.append_inj (hsrc'.symm.trans hsrc) hlength).2

/-- A run with calls and one without do the same; or the one without calls fails at the first call
of the text, and the other one goes on from there. -/
theorem same_or_stops (hcalls : m.calls = true) (hm : m.withoutCalls.NeverFails) (state : σ)
    (src : String) :
    program m.timeless (.start (.ofText src) state) =
      program m.withoutCalls.timeless (.start (.ofText src) state) ∨
    ∃ k what q, IsLeast { k | OpensCall src.toList k } k ∧
      program m.withoutCalls.timeless (.start (.ofText src) state) =
        .error ⟨.expected what, ⟨k, k + 1⟩⟩ q ∧
      k < (Action.ended (program m.timeless (.start (.ofText src) state))).cursor.offset := by
  refine (parallel_program hcalls _).imp_right ?_
  rintro ⟨t, u, ht, hreads, hreads'⟩
  obtain ⟨w, hw, hblanks⟩ := reads_skipBlanks (Cursor.first (.ofText src))
  rw [← Cursor.start_eq] at hblanks
  -- both runs are counted from the first character, blanks included
  have hall := hblanks.trans hreads
  have hall' := hblanks.trans hreads'
  have hsrc := hall.unread
  rw [Cursor.unread_first_ofText, ← List.append_assoc, List.append_assoc _ _ (Cursor.unread _),
    List.cons_append] at hsrc
  have hlength : (w ++ (t ++ '(' :: u)).length ≤ src.toList.length := by
    rw [hsrc]
    simp
  have hoffset : (w ++ t).length <
      (Action.ended (program m.timeless (.start (.ofText src) state))).cursor.offset := by
    rw [hall.eq_skip, (Cursor.offset_skip_first hlength).1]
    simp
  cases hresult : program m.withoutCalls.timeless (.start (.ofText src) state) with
  | ok b q =>
    rw [hresult] at hall'
    exact (not_ok_of_parenthesis hresult hsrc hall'.eq_skip).elim
  | error fault q =>
    rw [hresult] at hall'
    -- the run without calls has not passed the `(`, so it blames it
    obtain ⟨hleast, what, rfl⟩ := blames_first_call rfl hm hresult
      (append_mem_operandNames ht w) hsrc hall'.eq_skip
    exact ⟨_, what, q, hleast, rfl, hoffset⟩

end Grammar

end OnePass
