import OnePass.Proofs.Progress
import OnePass.Proofs.Seam

/-!
# Where an expression begins

An expression is read behind the `=` of an assignment, and behind a `(` that is not one of a call. A
text that ends with one of these is an *opener* (`Opener`). Where two texts begin with the same
opener and go on as they like, a parser comes to one of two ends (`Opened`): it stops before the end
of the opener, in both texts alike, or it stands behind the opener in both, with states that are
alike, and is to read an expression there.

* **`Opened.bind`** — the two ends, when one parser follows another.
* **`opens_opening`**, **`opens_reference`** — a `=` or `(` with an expression behind it, and the
  one `(` that has no expression behind it.
* **`opens_productions`** — the productions that an expression is made of.
* **`opens_program`** — all programs.
-/

namespace OnePass

/-! ## Openers -/

/-- The text ends where an expression begins: with `=`, or with a `(` in front of which there is no
name. -/
def Opener (u : List Char) : Prop :=
  ∃ v x, u = v ++ [x] ∧ (x = '=' ∨ x = '(' ∧
    ∀ before z w, v = before ++ z :: w → Blanks w → z.isAlpha = false)

namespace Opener

variable {u : List Char}

/-- An opener ends with its `=` or `(`. -/
theorem ne_nil (h : Opener u) : u ≠ [] := by
  obtain ⟨v, x, rfl, -⟩ := h
  exact List.append_ne_nil_of_right_ne_nil v (List.cons_ne_nil x [])

theorem length_pos (h : Opener u) : 0 < u.length := List.length_pos_iff.2 h.ne_nil

/-- What is left of an opener is one. -/
theorem drop (h : Opener u) {n : Nat} (hn : n < u.length) : Opener (u.drop n) := by
  obtain ⟨v, x, rfl, hx⟩ := h
  rw [List.length_append, List.length_singleton] at hn
  refine ⟨v.drop n, x, List.drop_append_of_le_length (by omega), hx.imp_right ?_⟩
  rintro ⟨rfl, hbefore⟩
  refine ⟨rfl, fun before z w hv => hbefore (v.take n ++ before) z w ?_⟩
  rw [List.append_assoc, ← hv, List.take_append_drop]

/-- The last character of an opener is in the rest of it, too. -/
theorem mem_of_cons {x : Char} (h : Opener (x :: u)) (hu : u ≠ []) : '=' ∈ u ∨ '(' ∈ u := by
  obtain ⟨v, y, hcut, hy⟩ := h
  have hlast : y ∈ u := by
    cases v with
    | nil => exact absurd (List.cons.inj hcut).2 hu
    | cons z v =>
      rw [(List.cons.inj hcut).2]
      exact List.mem_append_right v List.mem_cons_self
  rcases hy with rfl | ⟨rfl, -⟩
  · exact .inl hlast
  · exact .inr hlast

theorem mem (h : Opener u) : '=' ∈ u ∨ '(' ∈ u := by
  obtain ⟨v, x, rfl, rfl | ⟨rfl, -⟩⟩ := h
  · exact .inl (List.mem_append_right v List.mem_cons_self)
  · exact .inr (List.mem_append_right v List.mem_cons_self)

/-- An opener has no end among characters none of which ends one. -/
theorem length_lt (h : '=' ∈ u ∨ '(' ∈ u) {y t rest : List Char} (hcut : u ++ y = t ++ rest)
    (heq : '=' ∉ t) (hparen : '(' ∉ t) : t.length < u.length := by
  rcases h with h | h
  · exact length_lt_of_not_mem hcut h heq
  · exact length_lt_of_not_mem hcut h hparen

/-- A name and the `(` behind it are none. -/
theorem not_of_name {z : Char} {w : List Char} (hz : z.isAlpha = true) (hw : Blanks w) :
    ¬ Opener (z :: w ++ ['(']) := by
  rintro ⟨v, x, hcut, hx⟩
  obtain ⟨rfl, hlast⟩ := List.append_inj' hcut rfl
  cases hlast
  rcases hx with hx | ⟨-, hbefore⟩
  · exact absurd hx (by decide)
  · rw [hbefore [] z w rfl hw] at hz
    cases hz

end Opener

/-- Both texts have the opener at hand. -/
structure Forked (u : List Char) (c c' : Cursor) : Prop where
  opener : Opener u
  first : u <+: c.unread
  second : u <+: c'.unread

namespace Forked

variable {u : List Char} {c c' : Cursor}

/-- Up to its last character the texts are the same. -/
theorem alike (h : Forked u c c') {n : Nat} (hn : n < u.length) : c.AlikeFor n c' := by
  obtain ⟨y, hy⟩ := h.first
  obtain ⟨y', hy'⟩ := h.second
  exact alikeFor_of_append hy.symm hy'.symm hn

theorem look (h : Forked u c c') : c.look = c'.look := (h.alike h.opener.length_pos).look

/-- Behind fewer characters than the opener has, its rest is still ahead in both. -/
theorem skip (h : Forked u c c') {n : Nat} (hn : n < u.length) :
    Forked (u.drop n) (c.skip n) (c'.skip n) := by
  obtain ⟨y, hy⟩ := h.first
  obtain ⟨y', hy'⟩ := h.second
  exact ⟨h.opener.drop hn, ⟨y, (Grammar.unread_skip_seam hy.symm hn.le).symm⟩,
    ⟨y', (Grammar.unread_skip_seam hy'.symm hn.le).symm⟩⟩

/-- The character at hand is that of the opener. -/
theorem exists_cons (h : Forked u c c') {x : Char} {rest : List Char} (hc : c.unread = x :: rest) :
    ∃ v y, u = x :: v ∧ v ++ y = rest := by
  obtain ⟨y, hy⟩ := h.first
  rw [hc] at hy
  obtain ⟨z, v, rfl⟩ := List.exists_cons_of_ne_nil h.opener.ne_nil
  obtain ⟨rfl, hv⟩ := List.cons.inj hy
  exact ⟨v, y, rfl, hv⟩

end Forked

namespace Grammar

variable {σ α β γ : Type} {m : Clocked σ α} {S : σ → σ → Prop} {E : Fault → σ → σ → Prop}

/-! ## Parsers for all relations of states -/

/-- Whatever it is that makes states alike, the parser ends alike on them. -/
def Uniform (m : Clocked σ α) (x : Parser σ β) : Prop :=
  ∀ ⦃S : σ → σ → Prop⦄ ⦃E : Fault → σ → σ → Prop⦄, m.Simulates S E → Simulated S E x

/-- Whatever is formed simulates itself, for any two states that are related. -/
theorem Formed.uniform {x : Parser σ β} (h : Formed m x) : Uniform m x :=
  fun _ _ hm => h.simulated hm

/-- One such parser behind another. -/
theorem Uniform.bind {x : Parser σ β} {f : β → Parser σ γ} (hx : Uniform m x)
    (hf : ∀ b, Uniform m (f b)) : Uniform m (x >>= f) :=
  fun _ _ hm => (hx hm).bind fun b => hf b hm

theorem Uniform.of_bound {x : Nat → Parser σ β} {y : Parser σ β} (hx : ∀ n, Formed m (x n))
    (hy : ∀ n, AgreeUpTo n (x n) y) : Uniform m y :=
  fun _ _ hm => .of_bound (fun n => (hx n).simulated hm) hy

/-- The productions are formed under every bound, so they are like that. -/
theorem uniform_factor : Uniform m (factor m) :=
  .of_bound formed_factorWithin fun _ => agreeUpTo_factor m (Nat.le_refl _)

theorem uniform_termAfter (lhs : α) : Uniform m (termAfter m lhs) :=
  .of_bound (fun n => formed_chainWithin _ (formed_factorWithin n) n lhs) fun _ =>
    agreeUpTo_termAfter m (Nat.le_refl _) (Nat.le_refl _) lhs

theorem uniform_term : Uniform m (term m) :=
  .of_bound (fun n => formed_termWithin (formed_factorWithin n) n) fun _ =>
    agreeUpTo_term m (Nat.le_refl _) (Nat.le_refl _)

theorem uniform_expressionAfter (lhs : α) : Uniform m (expressionAfter m lhs) :=
  .of_bound (fun n => formed_chainWithin _ (formed_termWithin (formed_factorWithin n) n) n lhs)
    fun _ => agreeUpTo_expressionAfter m (Nat.le_refl _) (Nat.le_refl _) lhs

theorem uniform_expression : Uniform m (expression m) :=
  .of_bound (fun n => formed_expressionWithin (formed_factorWithin n) n) fun _ =>
    agreeUpTo_expression m (Nat.le_refl _) (Nat.le_refl _)

theorem uniform_program : Uniform m (program m) :=
  fun _ _ hm => simulated_program hm

/-! ## The two ends -/

/-- What a parser comes to at two texts that have the opener at hand. -/
inductive Opened (m : Clocked σ α) (S : σ → σ → Prop) (E : Fault → σ → σ → Prop) (u : List Char)
    (c c' : Cursor) {β : Type} :
    EStateM.Result Fault (Progress σ) β → EStateM.Result Fault (Progress σ) β → Prop
  /-- It stops before the end of the opener, alike. -/
  | before (n : Nat) (hn : n < u.length) {r r' : EStateM.Result Fault (Progress σ) β}
      (h : EndAlike S E n c c' r r') : Opened m S E u c c' r r'
  /-- It goes on with an expression behind the opener and the blanks there, and then with the same
  parser. -/
  | through (k : α → Parser σ β) (hk : ∀ v, Uniform m (k v)) {t t' : σ} (ht : S t t') :
      Opened m S E u c c' ((expression m >>= k) ⟨(c.skip u.length).skipBlanks, t⟩)
        ((expression m >>= k) ⟨(c'.skip u.length).skipBlanks, t'⟩)

/-- What was read before belongs to the opener too. -/
theorem Opened.of_skip {u : List Char} {c c' : Cursor} {n : Nat}
    {r r' : EStateM.Result Fault (Progress σ) β} (hn : n < u.length)
    (h : Opened m S E (u.drop n) (c.skip n) (c'.skip n) r r') : Opened m S E u c c' r r' := by
  cases h with
  | before k hk h =>
    rw [List.length_drop] at hk
    exact .before (n + k) (by omega) h.of_skip
  | through k hk ht =>
    have hlength : n + (u.drop n).length = u.length := by
      rw [List.length_drop]
      omega
    rw [← Cursor.skip_add, ← Cursor.skip_add, hlength]
    exact .through k hk ht

/-- What follows a parser that stops before the end of the opener has the rest of it at hand. -/
theorem Opened.bind {x : Parser σ β} {f : β → Parser σ γ} {u : List Char} {c c' : Cursor} {s s' : σ}
    (hx : Opened m S E u c c' (x ⟨c, s⟩) (x ⟨c', s'⟩))
    (hf : ∀ b n t t', n < u.length → x ⟨c, s⟩ = .ok b ⟨c.skip n, t⟩ → S t t' →
      Opened m S E (u.drop n) (c.skip n) (c'.skip n) (f b ⟨c.skip n, t⟩) (f b ⟨c'.skip n, t'⟩))
    (hu : ∀ b, Uniform m (f b)) :
    Opened m S E u c c' ((x >>= f) ⟨c, s⟩) ((x >>= f) ⟨c', s'⟩) := by
  rw [bind_apply, bind_apply]
  generalize x ⟨c, s⟩ = r at hx hf ⊢
  generalize x ⟨c', s'⟩ = r' at hx ⊢
  cases hx with
  -- both stopped at the same place, and the second parser starts there
  | before n hn h =>
    cases h with
    | ok b ht => exact (hf b n _ _ hn rfl ht).of_skip hn
    | missing what ht => exact .before n hn (.missing what ht)
    | failed fault ht => exact .before n hn (.failed fault ht)
  | through k hk ht =>
    -- the second parser becomes a part of what follows the expression
    rw [← bind_apply, ← bind_apply, bind_assoc]
    exact .through (fun v => k v >>= f) (fun v => (hk v).bind hu) ht

/-- What reads less than the opener stops before the end of it. -/
theorem Uniform.opened {x : Parser σ β} (hx : Uniform m x) (hm : m.Simulates S E) {u : List Char}
    {c c' : Cursor} (hfork : Forked u c c') {s s' : σ} (hs : S s s')
    (h : ∃ t, t.length < u.length ∧ c.Reads t (Action.ended (x ⟨c, s⟩)).cursor) :
    Opened m S E u c c' (x ⟨c, s⟩) (x ⟨c', s'⟩) := by
  obtain ⟨t, ht, hreads⟩ := h
  obtain ⟨n, hn, hend, halike⟩ := hx hm c s
  have hle : t.length ≤ c.unread.length := by
    rw [hreads.unread, List.length_append]
    exact Nat.le_add_right _ _
  obtain rfl : n = t.length := eq_of_skip_eq hn hle (hend.symm.trans hreads.eq_skip)
  exact .before t.length ht (halike c' s' (hfork.alike ht) hs)

/-- At two texts that have an opener of at most `n` characters at hand, the parser comes to one of
the two ends. -/
structure Opens (m : Clocked σ α) (S : σ → σ → Prop) (E : Fault → σ → σ → Prop) (n : Nat)
    (x : Parser σ β) : Prop where
  uniform : Uniform m x
  opened : ∀ {u : List Char} {c c' : Cursor} {s s' : σ}, Forked u c c' → u.length ≤ n → S s s' →
    Opened m S E u c c' (x ⟨c, s⟩) (x ⟨c', s'⟩)

/-- Under the bound zero there is no opener. -/
theorem Uniform.opens_zero {x : Parser σ β} (h : Uniform m x) : Opens m S E 0 x :=
  ⟨h, fun hfork hu _ => absurd hfork.opener.length_pos (Nat.not_lt.2 hu)⟩

/-- A parser that consumes leaves a shorter opener for the next one. -/
theorem Opens.bind {n d : Nat} {x : Parser σ β} {f : β → Parser σ γ} (hx : Opens m S E n x)
    (hd : Consumes d x) (hf : ∀ b, Opens m S E (n - d) (f b)) : Opens m S E n (x >>= f) := by
  refine ⟨hx.uniform.bind fun b => (hf b).uniform, fun {u c c' s s'} hfork hu hs => ?_⟩
  refine (hx.opened hfork hu hs).bind (fun b k t t' hk hok ht => ?_) fun b => (hf b).uniform
  -- as much as is consumed, the rest of the opener is shorter
  have hconsumed := hd hok
  have hle := hfork.first.length_le
  simp only [Progress.left, Cursor.unread_skip, List.length_drop] at hconsumed
  refine (hf b).opened (hfork.skip hk) ?_ ht
  rw [List.length_drop]
  omega

/-- A parser that need not consume leaves one that is no longer. -/
theorem Opens.andThen {n : Nat} {x : Parser σ β} {f : β → Parser σ γ} (hx : Opens m S E n x)
    (hf : ∀ b, Opens m S E n (f b)) : Opens m S E n (x >>= f) := by
  refine ⟨hx.uniform.bind fun b => (hf b).uniform, fun {u c c' s s'} hfork hu hs => ?_⟩
  refine (hx.opened hfork hu hs).bind (fun b k t t' hk _ ht => ?_) fun b => (hf b).uniform
  refine (hf b).opened (hfork.skip hk) ?_ ht
  rw [List.length_drop]
  omega

/-- The two cursors have the same shape at hand, so the same is chosen. -/
theorem Opens.cursor_bind {n : Nat} {f : Cursor → Parser σ β}
    (hf : ∀ c, Opens m S E n (f c))
    (hlook : ∀ c c' : Cursor, c.shape? = c'.shape? → f c = f c') :
    Opens m S E n (cursor >>= f) := by
  refine ⟨fun S E hm c s => ?_, fun {u c c' s s'} hfork hu hs => ?_⟩
  · obtain ⟨k, hk, hend, halike⟩ := (hf c).uniform hm c s
    refine ⟨k, hk, hend, fun c' s' hc' hs => ?_⟩
    rw [cursor_bind_apply, cursor_bind_apply, hlook c' c (Cursor.shape?_congr hc'.look.symm)]
    exact halike c' s' hc' hs
  · rw [cursor_bind_apply, cursor_bind_apply, hlook c' c (Cursor.shape?_congr hfork.look.symm)]
    exact (hf c).opened hfork hu hs

/-! ## Lexemes and steps -/

/-- To do nothing stops at the beginning of the opener. -/
theorem opens_pure {n : Nat} (hm : m.Simulates S E) (b : β) : Opens m S E n (pure b) :=
  ⟨(Formed.pure b).uniform, fun hfork _ hs => (Formed.pure b).uniform.opened hm hfork hs
    ⟨[], hfork.opener.length_pos, Cursor.Reads.refl _⟩⟩

/-- A step is performed in front of the opener. -/
theorem opens_act {n : Nat} (hm : m.Simulates S E) {action : Action σ β}
    (h : Formed m (act m action)) : Opens m S E n (act m action) := by
  refine ⟨h.uniform, fun {u c c' s s'} hfork _ hs => ?_⟩
  refine h.uniform.opened hm hfork hs ⟨[], hfork.opener.length_pos, ?_⟩
  have hstill : (Action.ended (act m action ⟨c, s⟩)).cursor = c := by
    unfold act
    cases action (m.tick c s) <;> rfl
  rw [hstill]
  exact Cursor.Reads.refl c

/-- What a lexeme leaves, if it reads less than so many characters. -/
theorem exists_reads_scan {lexeme : Scan β} {c : Cursor} (hlexeme : Decides lexeme c) {n : Nat}
    (hn : 0 < n) (h : ∀ b c₁, lexeme c = .ok b c₁ → ∃ t, t.length < n ∧ c.Reads t c₁) (s : σ) :
    ∃ t, t.length < n ∧ c.Reads t (Action.ended (scan lexeme ⟨c, s⟩)).cursor := by
  rcases hlexeme with ⟨b, k, -, hok⟩ | ⟨what, herror⟩
  · have hread := hok c (.refl k c)
    obtain ⟨t, ht, hreads⟩ := h _ _ hread
    refine ⟨t, ht, ?_⟩
    simp only [scan, hread]
    exact hreads
  · refine ⟨[], hn, ?_⟩
    simp only [scan, herror c (.refl 0 c)]
    exact Cursor.Reads.refl c

/-- A lexeme without the characters that end an opener. -/
theorem opens_scan {n : Nat} (hm : m.Simulates S E) {lexeme : Scan β} (h : Formed m (scan lexeme))
    (hlexeme : ∀ c, Decides lexeme c)
    (hreads : ∀ c b c₁, lexeme c = .ok b c₁ → ∃ t, c.Reads t c₁ ∧ '=' ∉ t ∧ '(' ∉ t) :
    Opens m S E n (scan lexeme) := by
  refine ⟨h.uniform, fun {u c c' s s'} hfork _ hs => h.uniform.opened hm hfork hs ?_⟩
  refine exists_reads_scan (hlexeme c) hfork.opener.length_pos (fun b c₁ hok => ?_) s
  obtain ⟨t, ht, heq, hparen⟩ := hreads c b c₁ hok
  obtain ⟨y, hy⟩ := hfork.first
  exact ⟨t, Opener.length_lt hfork.opener.mem (hy.trans ht.unread) heq hparen, ht⟩

/-- Blanks end no opener. -/
theorem not_mem_blanks {w : List Char} (hw : Blanks w) : '=' ∉ w ∧ '(' ∉ w :=
  ⟨fun h => absurd (hw _ h) (by decide), fun h => absurd (hw _ h) (by decide)⟩

/-- A name ends before an opener does. -/
theorem opens_letter {n : Nat} (hm : m.Simulates S E) : Opens m S E n (scan Lexeme.letter) := by
  refine opens_scan hm .letter Lexeme.decides_letter fun c name c₁ h => ?_
  obtain ⟨z, w, hz, -, hw, hreads⟩ := Lexeme.reads_of_letter h
  obtain ⟨heq, hparen⟩ := not_mem_blanks hw
  refine ⟨z :: w, hreads, List.not_mem_cons_of_ne_of_not_mem ?_ heq,
    List.not_mem_cons_of_ne_of_not_mem ?_ hparen⟩
  · rintro rfl
    exact absurd hz (by decide)
  · rintro rfl
    exact absurd hz (by decide)

theorem opens_digits {n : Nat} (hm : m.Simulates S E) : Opens m S E n (scan Lexeme.digits) := by
  refine opens_scan hm .digits Lexeme.decides_digits fun c digits c₁ h => ?_
  obtain ⟨ds, w, hds, -, hw, hreads⟩ := Lexeme.reads_of_digits h
  obtain ⟨heq, hparen⟩ := not_mem_blanks hw
  refine ⟨ds ++ w, hreads, fun hmem => ?_, fun hmem => ?_⟩
  · exact (List.mem_append.1 hmem).elim (fun hd => absurd (hds.2 _ hd) (by decide)) heq
  · exact (List.mem_append.1 hmem).elim (fun hd => absurd (hds.2 _ hd) (by decide)) hparen

/-- So does a line end. -/
theorem opens_lineEnd {n : Nat} (hm : m.Simulates S E) : Opens m S E n (scan Lexeme.lineEnd) := by
  refine opens_scan hm .lineEnd Lexeme.decides_lineEnd fun c seen c₁ h => ?_
  obtain ⟨e, he, hreads⟩ := Lexeme.reads_of_lineEnd h
  refine ⟨e, hreads, ?_⟩
  cases he with
  | none => exact ⟨List.not_mem_nil, List.not_mem_nil⟩
  | cr hw => simpa using not_mem_blanks hw
  | lf hw => simpa using not_mem_blanks hw
  | crlf hw => simpa using not_mem_blanks hw

/-- A symbol stops before the end of an opener that is more than the symbol. -/
theorem opened_symbol {x : Char} (hx : isSymbol x = true) (hm : m.Simulates S E) {u : List Char}
    {c c' : Cursor} (hfork : Forked u c c') (hu : u ≠ [x]) {s s' : σ} (hs : S s s') :
    Opened m S E u c c' (scan (Lexeme.symbol x) ⟨c, s⟩) (scan (Lexeme.symbol x) ⟨c', s'⟩) := by
  refine (Formed.symbol x hx).uniform.opened hm hfork hs ?_
  refine exists_reads_scan (Lexeme.decides_symbol x c) hfork.opener.length_pos (fun b c₁ h => ?_) s
  obtain ⟨w, hw, hreads⟩ := Lexeme.reads_of_symbol h
  obtain ⟨v, y, rfl, hv⟩ := hfork.exists_cons hreads.unread
  have hne : v ≠ [] := fun hnil => hu (by rw [hnil])
  obtain ⟨heq, hparen⟩ := not_mem_blanks hw
  have hlt := Opener.length_lt (hfork.opener.mem_of_cons hne) hv heq hparen
  exact ⟨x :: w, Nat.succ_lt_succ hlt, hreads⟩

/-- A symbol that ends no opener. -/
theorem opens_symbol {n : Nat} {x : Char} (hx : isSymbol x = true) (hm : m.Simulates S E)
    (heq : x ≠ '=') (hparen : x ≠ '(') : Opens m S E n (scan (Lexeme.symbol x)) := by
  refine ⟨(Formed.symbol x hx).uniform, fun {u c c' s s'} hfork _ hs => ?_⟩
  refine opened_symbol hx hm hfork ?_ hs
  rintro rfl
  rcases hfork.opener.mem with hmem | hmem
  · exact heq (List.mem_singleton.1 hmem).symm
  · exact hparen (List.mem_singleton.1 hmem).symm

/-- A symbol with an expression behind it: if the opener ends with this symbol, the expression
begins behind the opener. -/
theorem opens_opening {n : Nat} {x : Char} (hx : isSymbol x = true) (hm : m.Simulates S E)
    {k : α → Parser σ β} (h : Opens m S E n (expression m >>= k)) (hk : ∀ v, Uniform m (k v)) :
    Opens m S E (n + 1) (do
      scan (Lexeme.symbol x)
      let value ← expression m
      k value) := by
  have hsymbol : Uniform m (scan (Lexeme.symbol x)) := (Formed.symbol x hx).uniform
  refine ⟨hsymbol.bind fun _ => h.uniform, fun {u c c' s s'} hfork hu hs => ?_⟩
  -- either the symbol is all of the opener, or the end of the opener lies behind it
  by_cases hend : u = [x]
  · subst hend
    -- in both texts the symbol is read, and the expression is to come
    have hread {c : Cursor} (hc : [x] <+: c.unread) (s : σ) :
        scan (Lexeme.symbol x) (⟨c, s⟩ : Progress σ) = .ok () ⟨(c.skip 1).skipBlanks, s⟩ := by
      obtain ⟨y, hy⟩ := hc
      have hat : c.isAt x = true := Cursor.isAt_of_unread hy.symm
      simp only [scan, Lexeme.symbol, hat, if_true]
      rfl
    rw [bind_apply, bind_apply, hread hfork.first, hread hfork.second]
    exact .through k hk hs
  · refine (opened_symbol hx hm hfork hend hs).bind (fun b i t t' hi hok ht => ?_) fun _ =>
      h.uniform
    -- the symbol was consumed, so the bound goes down with it
    have hconsumed := consumes_symbol x hok
    have hle := hfork.first.length_le
    simp only [Progress.left, Cursor.unread_skip, List.length_drop] at hconsumed
    refine h.opened (hfork.skip hi) ?_ ht
    rw [List.length_drop]
    omega

/-! ## Productions -/

/-- Behind a name there is more than a `(` left of the opener. -/
theorem drop_ne_of_letter {u : List Char} {c c' : Cursor} (hfork : Forked u c c') {name : String}
    {i : Nat} (hi : i < u.length) (h : Lexeme.letter c = .ok name (c.skip i)) :
    u.drop i ≠ ['('] := by
  obtain ⟨z, w, hz, -, hw, hreads⟩ := Lexeme.reads_of_letter h
  obtain ⟨y, hy⟩ := hfork.first
  have hread : (z :: w).length ≤ c.unread.length := by
    rw [hreads.unread, List.length_append]
    exact Nat.le_add_right _ _
  obtain rfl : i = (z :: w).length :=
    eq_of_skip_eq (hi.le.trans hfork.first.length_le) hread hreads.eq_skip
  have htake : u.take (z :: w).length = z :: w := by
    rw [← List.take_append_of_le_length hi.le, hy, hreads.unread, List.take_left]
  intro hlast
  have hopener := hfork.opener
  rw [← List.take_append_drop (z :: w).length u, hlast, htake] at hopener
  exact Opener.not_of_name hz hw hopener

/-- A name stops before the end of the opener, since that is not the `(` of a call. -/
theorem opens_reference {n : Nat} (hm : m.Simulates S E) : Opens m S E n (reference m) := by
  refine ⟨formed_reference.uniform, fun {u c c' s s'} hfork hu hs => ?_⟩
  refine ((opens_letter hm).opened hfork hu hs).bind (fun name i t t' hi hok ht => ?_) fun name =>
    (formed_named name).uniform
  have hletter : Lexeme.letter c = .ok name (c.skip i) := (scan_eq_ok hok).1
  have hrest := hfork.skip hi
  have hne := drop_ne_of_letter hfork hi hletter
  have hshape := Cursor.shape?_congr hrest.look
  rw [cursor_bind_apply, cursor_bind_apply]
  simp only [← Cursor.isAt_congr hshape '(']
  split
  · next hcalls =>
    -- the `(` of a call is at hand, and that is not the end of the opener
    have hcall : Opens m S E u.length (do
        scan (Lexeme.symbol ')')
        act m (m.call name)) :=
      (opens_symbol (by decide) hm (by decide) (by decide)).andThen fun _ =>
        opens_act hm (.act (.call name) (fun _ => (Bool.and_eq_true_iff.1 hcalls).1)
          (Option.some_injective _) rfl)
    refine (opened_symbol (by decide) hm hrest hne ht).bind (fun b j r r' hj hok hr => ?_) fun _ =>
      hcall.uniform
    refine hcall.opened (hrest.skip hj) ?_ hr
    rw [List.length_drop, List.length_drop]
    omega
  · exact (opens_act hm (formed_act (.load name) rfl)).opened hrest (Nat.le_refl _) ht

/-- The productions of an expression. -/
structure OpensExpressions (m : Clocked σ α) (S : σ → σ → Prop) (E : Fault → σ → σ → Prop)
    (n : Nat) : Prop where
  factor : Opens m S E n (factor m)
  termAfter : ∀ lhs, Opens m S E n (termAfter m lhs)
  term : Opens m S E n (term m)
  expressionAfter : ∀ lhs, Opens m S E n (expressionAfter m lhs)
  expression : Opens m S E n (expression m)

/-- A factor in parentheses is where an expression may be opened. -/
theorem opens_factor {n : Nat} (hm : m.Simulates S E) (h : Opens m S E n (expression m)) :
    Opens m S E (n + 1) (factor m) := by
  rw [factor_eq]
  refine Opens.cursor_bind (fun c => ?_) fun c c' hlook => by
    simp only [Cursor.isAt_congr hlook '(', Cursor.isAtLetter_congr hlook]
  split
  · have hclosed (value : α) : Opens m S E n (do
        scan (Lexeme.symbol ')')
        pure value) :=
      (opens_symbol (by decide) hm (by decide) (by decide)).bind (consumes_symbol ')') fun _ =>
        opens_pure hm value
    exact opens_opening (by decide) hm (h.andThen hclosed) fun v => (hclosed v).uniform
  · split
    · exact opens_reference hm
    · exact (opens_digits hm).andThen fun digits => opens_act hm (formed_act (.number digits) rfl)

/-- No operator ends an opener. -/
theorem toChar_ne (op : Operator) : op.toChar ≠ '=' ∧ op.toChar ≠ '(' := by
  cases op <;> decide

/-- The loop of a sum or a product, given what its operands are and what it goes on with. -/
theorem opens_chain {n : Nat} (hm : m.Simulates S E) (level : Operator → Bool)
    {operand : Parser σ α} {after : α → Parser σ α} (hoperand : Opens m S E n operand)
    (hafter : ∀ lhs, Opens m S E n (after lhs)) (lhs : α) : Opens m S E (n + 1) (do
      match (← cursor).operator?.filter level with
      | none => pure lhs
      | some op =>
        let held ← act m (m.hold lhs)
        scan (Lexeme.symbol op.toChar)
        let rhs ← operand
        let value ← act m (m.combine op held rhs)
        after value) := by
  refine Opens.cursor_bind (fun c => ?_) fun c c' hlook => by
    simp only [Cursor.operator?_congr hlook]
  split
  · exact opens_pure hm lhs
  · next op _ =>
    -- an operator is neither `=` nor `(`, so the opener ends behind it
    obtain ⟨heq, hparen⟩ := toChar_ne op
    refine (opens_act hm (formed_act (.hold lhs) rfl)).andThen fun held => ?_
    refine (opens_symbol (isSymbol_toChar op) hm heq hparen).bind (consumes_symbol _) fun _ => ?_
    refine hoperand.andThen fun rhs => ?_
    exact (opens_act hm (formed_act (.combine op held rhs) rfl)).andThen hafter

/-- A sign has the loop behind it, and so has the first term. -/
theorem opens_expression {n : Nat} (hm : m.Simulates S E) (hterm : Opens m S E n (term m))
    (hrest : ∀ lhs, Opens m S E n (expressionAfter m lhs)) : Opens m S E n (expression m) := by
  rw [expression_eq]
  refine Opens.cursor_bind (fun c => ?_) fun c c' hlook => by
    simp only [Cursor.isAtAdditive_congr hlook]
  split
  · exact (opens_act hm (formed_act .zero rfl)).andThen hrest
  · exact hterm.andThen hrest

/-- However long the opener is: a production that consumes a part of it has less of it at hand. -/
theorem opens_productions (hm : m.Simulates S E) (n : Nat) : OpensExpressions m S E n := by
  induction n with
  | zero =>
    exact ⟨uniform_factor.opens_zero, fun lhs => (uniform_termAfter lhs).opens_zero,
      uniform_term.opens_zero, fun lhs => (uniform_expressionAfter lhs).opens_zero,
      uniform_expression.opens_zero⟩
  | succ n ih =>
    -- a factor consumes its parenthesis and a loop its operator, so what follows has less at hand
    have hfactor := opens_factor hm ih.expression
    have hterm : Opens m S E (n + 1) (term m) := by
      rw [term_eq]
      exact hfactor.bind (consumes_factor m) ih.termAfter
    have hfactors (lhs : α) : Opens m S E (n + 1) (termAfter m lhs) := by
      rw [termAfter_eq]
      exact opens_chain hm _ ih.factor ih.termAfter lhs
    have hterms (lhs : α) : Opens m S E (n + 1) (expressionAfter m lhs) := by
      rw [expressionAfter_eq]
      exact opens_chain hm _ ih.term ih.expressionAfter lhs
    exact ⟨hfactor, hfactors, hterm, hterms, opens_expression hm hterm hterms⟩

/-- An assignment opens its expression behind the `=`. -/
theorem opens_assignment (hm : m.Simulates S E) (n : Nat) : Opens m S E (n + 1) (assignment m) := by
  rw [assignment_eq]
  refine (opens_letter hm).andThen fun name => ?_
  have hassign (value : α) : Opens m S E n (act m (m.assign name value)) :=
    opens_act hm (formed_act (.assign name value) rfl)
  exact opens_opening (by decide) hm ((opens_productions hm n).expression.andThen hassign)
    fun v => (hassign v).uniform

/-- An output is no opener. -/
theorem opens_output {n : Nat} (hm : m.Simulates S E) : Opens m S E n (output m) :=
  (opens_symbol (by decide) hm (by decide) (by decide)).andThen fun _ =>
    (opens_letter hm).andThen fun name => opens_act hm (formed_act (.print name) rfl)

theorem opens_input {n : Nat} (hm : m.Simulates S E) : Opens m S E n (input m) := by
  refine (opens_symbol (by decide) hm (by decide) (by decide)).andThen fun _ => ?_
  refine (opens_letter hm).andThen fun name => (opens_digits hm).andThen fun digits => ?_
  refine (opens_act hm (formed_act (.number digits) rfl)).andThen fun value => ?_
  exact opens_act hm (formed_act (.assign name value) rfl)

/-- Which statement comes depends on the shape at hand. -/
theorem opens_statement (hm : m.Simulates S E) (n : Nat) : Opens m S E (n + 1) (statement m) := by
  rw [statement_eq]
  refine Opens.cursor_bind (fun c => ?_) fun c c' hlook => by
    simp only [Cursor.isAt_congr hlook '!', Cursor.isAt_congr hlook '?']
  split
  · exact opens_output hm
  · split
    · exact opens_input hm
    · exact opens_assignment hm n

/-- A program that is read from two texts with the same opener stops before the end of it, or comes
to an expression behind it. -/
theorem opens_program (hm : m.Simulates S E) (n : Nat) : Opens m S E n (program m) := by
  induction n with
  | zero => exact uniform_program.opens_zero
  | succ n ih =>
    rw [program_eq]
    refine (opens_statement hm n).bind ((consumes_statement m).mono one_le_two) fun _ => ?_
    refine (opens_lineEnd hm).andThen fun _ => ?_
    refine Opens.cursor_bind (fun c => ?_) fun c c' hlook => by
      simp only [Cursor.isAt_congr hlook ';']
    split
    · exact opens_pure hm ()
    · exact ih

end Grammar

end OnePass
