import OnePass.Proofs.Composition
import OnePass.Proofs.Layouts
import OnePass.Proofs.Openings

/-!
# A leading sign has a zero in front

An expression may begin with a sign, and then there is a zero in front that is not in the text. It
makes no difference to put it there: what comes of the text is the same, but the characters behind
the zero are one column further on, and a listing has `MOVE #0,D0` where it had `CLR D0`.

* **`expression_of_sign`**, **`expression_of_zero`** — the two ways into the loop of a sum.
* **`program_padded`** — a program that stops before the sign knows nothing of the zero; from there
  on, the states are those of the two ways.
* **`sign_is_padding`** — the two front ends.
-/

namespace OnePass

/-! ## Texts that end where an expression begins -/

/-- The last character of the text that is no blank is `=`, or it is `(` and the one in front of
that, blanks apart, is no letter. -/
def opensExpression (a : List Char) : Bool :=
  match a.reverse.dropWhile isBlank with
  | '=' :: _ => true
  | '(' :: before => !(before.dropWhile isBlank).head?.any Char.isAlpha
  | _ => false

theorem isAlpha_of_isBlank {x : Char} (h : isBlank x = true) : x.isAlpha = false := by
  rw [isBlank, Bool.or_eq_true, decide_eq_true_eq, decide_eq_true_eq] at h
  rcases h with rfl | rfl <;> decide

/-- The character in front of some blanks is no letter, if the last one that is no blank is none. -/
theorem isAlpha_of_dropWhile {before : List Char}
    (h : (before.dropWhile isBlank).head?.any Char.isAlpha = false) {v w : List Char} {z : Char}
    (hcut : before.reverse = v ++ z :: w) (hw : Blanks w) : z.isAlpha = false := by
  have hbefore : before = w.reverse ++ z :: v.reverse := by
    rw [← List.reverse_reverse before, hcut]
    simp
  cases hz : isBlank z with
  | true => exact isAlpha_of_isBlank hz
  | false =>
    have hw' : ∀ x ∈ w.reverse, isBlank x = true := fun x hx => hw x (List.mem_reverse.1 hx)
    rw [hbefore, List.dropWhile_append_of_pos hw',
      List.dropWhile_cons_of_neg (by rw [hz]; exact Bool.false_ne_true)] at h
    exact h

/-- A text that opens an expression ends with an opener and blanks. -/
theorem exists_opener {a : List Char} (h : opensExpression a = true) :
    ∃ u w, Opener u ∧ Blanks w ∧ a = u ++ w := by
  -- the blanks at the end, cut off from behind
  have hcut :
      a = (a.reverse.dropWhile isBlank).reverse ++ (a.reverse.takeWhile isBlank).reverse := by
    rw [← List.reverse_append, List.takeWhile_append_dropWhile, List.reverse_reverse]
  refine ⟨_, _, ?_, fun x hx => blanks_takeWhile _ x (List.mem_reverse.1 hx), hcut⟩
  unfold opensExpression at h
  split at h
  · next before heq =>
    rw [heq, List.reverse_cons]
    exact ⟨_, '=', rfl, .inl rfl⟩
  · next before heq =>
    rw [heq, List.reverse_cons]
    exact ⟨_, '(', rfl, .inr ⟨rfl, fun v z w hv hw =>
      isAlpha_of_dropWhile (by simpa using h) hv hw⟩⟩
  · cases h

/-- A text that begins with such a text: the blanks in front are skipped at the start, and then the
opener is at hand. Behind it and the blanks that follow, all of the beginning has been read. -/
theorem exists_start_opener {a : List Char} (h : opensExpression a = true) :
    ∃ v u : List Char, v.length + u.length ≤ a.length ∧ Opener u ∧
      ∀ (source : Source) (y : List Char), source.toList = a ++ y → StopsAt isBlank y →
        Cursor.start source = (Cursor.first source).skip v.length ∧
          u <+: (Cursor.start source).unread ∧
          ((Cursor.start source).skip u.length).skipBlanks =
            (Cursor.first source).skip a.length := by
  obtain ⟨u', w, hopener, hw, rfl⟩ := exists_opener h
  obtain ⟨v, u, hv, hu, rfl⟩ := Lexeme.exists_blanks u'
  -- the blanks in front of a program are none of the opener
  obtain ⟨heq, hparen⟩ := Grammar.not_mem_blanks hv
  have hlt : v.length < (v ++ u).length :=
    Opener.length_lt hopener.mem (List.append_nil _) heq hparen
  have hrest := hopener.drop hlt
  rw [List.drop_left] at hrest
  refine ⟨v, u, ?_, hrest, fun source y hsource hy => ?_⟩
  · rw [List.length_append, List.length_append]
    exact Nat.le_add_right _ _
  · rw [List.append_assoc, List.append_assoc] at hsource
    obtain ⟨hstart, hunread⟩ := Grammar.start_of_blanks hv hu hrest.ne_nil hsource
    refine ⟨hstart, ⟨_, hunread.symm⟩, ?_⟩
    rw [skipBlanks_of_blanks (Cursor.unread_skip_append hunread) hw hy, hstart, ← Cursor.skip_add,
      ← Cursor.skip_add, List.length_append, List.length_append, Nat.add_assoc]

/-! ## Two ways into a sum -/

namespace Grammar

variable {σ α β : Type}

/-- A sign at hand has a zero in front. -/
theorem expression_of_sign (m : Semantics σ α) {c : Cursor} (h : c.isAtAdditive = true) {s t : σ}
    {v : α} (hzero : m.zero s = .ok v t) :
    expression m.timeless ⟨c, s⟩ = expressionAfter m.timeless v ⟨c, t⟩ := by
  have hact : act m.timeless m.timeless.zero ⟨c, s⟩ = .ok v ⟨c, t⟩ :=
    (does_act m m.zero c).eq_ok hzero
  rw [expression_eq, cursor_bind_apply]
  simp only [h, if_true]
  rw [bind_apply, hact]

/-- A zero at hand is a number, and a term by itself if a sum goes on behind it. -/
theorem expression_of_zero (m : Semantics σ α) {c : Cursor} {rest : List Char}
    (h : c.unread = '0' :: rest) (hjoins : StopsAt joins rest)
    (hproduct : StopsAt (isOperatorOf .term) rest) {s t : σ} {v : α}
    (hzero : m.number "0" s = .ok v t) :
    expression m.timeless ⟨c, s⟩ = expressionAfter m.timeless v ⟨c.skip 1, t⟩ := by
  have hfactor : factor m.timeless ⟨c, s⟩ = .ok v ⟨c.skip 1, t⟩ := by
    have hspelled : c.unread = ['0'] ++ [] ++ rest := h
    exact (number_does m hspelled (by decide) (List.forall_mem_nil _) hjoins).eq_ok hzero
  have hbehind : (c.skip 1).unread = rest := Cursor.unread_skip_append (s := ['0']) h
  have hterm : term m.timeless ⟨c, s⟩ = .ok v ⟨c.skip 1, t⟩ := by
    rw [← hbehind] at hproduct
    have hloop : Does (termAfter m.timeless v) (c.skip 1) 0 (pure v) :=
      constructAfter_does_of_stopsAt m v hproduct
    rw [term_eq, bind_apply, hfactor]
    exact hloop.eq_ok rfl
  -- a zero is no sign, so the expression begins with a term
  have hsign : c.isAtAdditive = false := isAtAdditive_of_beginsFactor h (by decide)
  rw [expression_eq, cursor_bind_apply]
  simp only [hsign, Bool.false_eq_true, if_false]
  rw [bind_apply, hterm]

end Grammar

/-! ## Places -/

/-- The place of an offset in a text into which a zero was put. -/
def withZero (front k : Nat) : Nat := if k < front then k else k + 1

/-- The characters of the text are all there, some of them one place further on. -/
theorem getElem?_withZero (a b : List Char) (n : Nat) :
    (a ++ '0' :: b)[withZero a.length n]? = (a ++ b)[n]? := by
  unfold withZero
  split
  · next hn => rw [List.getElem?_append_left hn, List.getElem?_append_left hn]
  · next hn =>
    have hle : a.length ≤ n := Nat.le_of_not_lt hn
    rw [List.getElem?_append_right (by omega), List.getElem?_append_right hle,
      show n + 1 - a.length = n - a.length + 1 by omega, List.getElem?_cons_succ]

theorem toList_withZero (a b : String) :
    (a ++ "0" ++ b).toList = a.toList ++ '0' :: b.toList := by
  simp [String.toList_append]

/-- Every character has its place in the text with the zero. -/
theorem placed_withZero (a b : String) {n : Nat} (hn : n ≤ a.toList.length + b.toList.length) :
    ((Cursor.first (.ofText (a ++ b))).skip n).Placed (withZero a.length)
      ((Cursor.first (.ofText (a ++ "0" ++ b))).skip (withZero a.length n)) := by
  have hlength : (a ++ b).toList.length = a.toList.length + b.toList.length := by
    rw [String.toList_append, List.length_append]
  have hlength' : (a ++ "0" ++ b).toList.length = a.toList.length + (b.toList.length + 1) := by
    rw [toList_withZero, List.length_append, List.length_cons]
  have hn' : withZero a.length n ≤ (a ++ "0" ++ b).toList.length := by
    unfold withZero
    split <;> omega
  obtain ⟨hoffset, hrequests⟩ := Cursor.offset_skip_first (hlength ▸ hn)
  obtain ⟨hoffset', hrequests'⟩ := Cursor.offset_skip_first hn'
  refine ⟨?_, by rw [hoffset, hoffset'], n, hrequests, hrequests'⟩
  -- the characters at hand are those of the two texts at the place and where it is moved to
  rw [Cursor.look_eq_head?, Cursor.look_eq_head?, Cursor.unread_skip, Cursor.unread_skip,
    Cursor.unread_first_ofText, Cursor.unread_first_ofText, List.head?_drop, List.head?_drop,
    toList_withZero, String.toList_append, ← String.length_toList, getElem?_withZero]

namespace Grammar

variable {σ α β : Type}

/-- Ends that are alike from corresponding places are at corresponding places. -/
theorem EndAlike.placed {S : σ → σ → Prop} {E : Fault → σ → σ → Prop} {n : Nat} {c c' : Cursor}
    {r r' : EStateM.Result Fault (Progress σ) β} {place : Nat → Nat} (h : EndAlike S E n c c' r r')
    (hc : (c.skip n).Placed place (c'.skip n)) : EndPlaced S E place r r' := by
  cases h with
  | ok b hs => exact .ok b hc hs
  | missing what hs =>
    rw [Cursor.missing_replaced hc.look_isSome hc.offset]
    exact .missing what hc hs
  | failed fault hs => exact .failed fault hc hs

/-- The sign of an additive operator. -/
theorem exists_sign {b : String} (hb : b.toList.head? = some '+' ∨ b.toList.head? = some '-') :
    ∃ (op : Operator) (rest : List Char), op.isAdditive = true ∧ b.toList = op.toChar :: rest := by
  rcases hb with hb | hb
  · obtain ⟨rest, hrest⟩ := List.head?_eq_some_iff.1 hb
    exact ⟨.add, rest, rfl, hrest⟩
  · obtain ⟨rest, hrest⟩ := List.head?_eq_some_iff.1 hb
    exact ⟨.sub, rest, rfl, hrest⟩

variable {m : Semantics σ α} {S S₁ : σ → σ → Prop} {E E₁ : Fault → σ → σ → Prop}

/-- An expression that begins with a sign in the one text and with a zero in front of the sign in
the other, and what follows it. -/
theorem expression_padded (hm : m.timeless.Simulates S₁ E₁) {k : α → Parser σ β}
    (hk : ∀ v, Uniform m.timeless (k v)) {op : Operator} (hop : op.isAdditive = true)
    {rest : List Char} {c c' : Cursor} (hc : c.unread = op.toChar :: rest)
    (hc' : c'.unread = '0' :: op.toChar :: rest) {s s' t t' : σ} {v : α}
    (hzero : m.zero s = .ok v t) (hnumber : m.number "0" s' = .ok v t') (ht : S₁ t t') :
    ∃ n ≤ c.unread.length, EndAlike S₁ E₁ n c (c'.skip 1)
      ((expression m.timeless >>= k) ⟨c, s⟩) ((expression m.timeless >>= k) ⟨c', s'⟩) := by
  have hsign : c.isAtAdditive = true := by
    rw [Cursor.isAtAdditive, Cursor.operator?, Cursor.look_of_unread hc, Option.bind_some,
      Operator.ofChar?_toChar, Option.any_some, hop]
  -- behind the zero stands the sign, which is no operator of a product
  have hproduct : StopsAt (isOperatorOf .term) (op.toChar :: rest) := by
    refine stopsAt_cons ?_
    rw [isOperatorOf_toChar]
    show op.isMultiplicative = false
    rw [Operator.isMultiplicative_eq_not_isAdditive, hop]
    rfl
  have hbehind : (c'.skip 1).unread = c.unread := by
    rw [hc]
    exact Cursor.unread_skip_append (s := ['0']) hc'
  have hafter : Uniform m.timeless (expressionAfter m.timeless v >>= k) :=
    (uniform_expressionAfter v).bind hk
  obtain ⟨n, hn, -, halike⟩ := hafter hm c t
  refine ⟨n, hn, ?_⟩
  rw [bind_apply, bind_apply, expression_of_sign m hsign hzero,
    expression_of_zero m hc' (stopsAt_cons (joins_toChar op)) hproduct hnumber, ← bind_apply,
    ← bind_apply]
  exact halike (c'.skip 1) t' (.of_unread n hbehind) ht

/-- A program without the zero and with it: either both stop before the sign, alike, or the one goes
on from the value of a sign, and the other from the value of the number. -/
theorem program_padded (hm : m.timeless.Simulates S E) (hm₁ : m.timeless.Simulates S₁ E₁)
    (hzero : ∀ s s', S s s' →
      ∃ v t t', m.zero s = .ok v t ∧ m.number "0" s' = .ok v t' ∧ S₁ t t')
    {a b : String} (ha : opensExpression a.toList = true)
    (hb : b.toList.head? = some '+' ∨ b.toList.head? = some '-') {s s' : σ} (hs : S s s') :
    let r := program m.timeless (.start (.ofText (a ++ b)) s)
    let r' := program m.timeless (.start (.ofText (a ++ "0" ++ b)) s')
    EndPlaced S E (withZero a.length) r r' ∨ EndPlaced S₁ E₁ (withZero a.length) r r' := by
  intro r r'
  obtain ⟨v, u, hle, hopener, hstart⟩ := exists_start_opener ha
  obtain ⟨op, rest, hop, hrest⟩ := exists_sign hb
  have htext : (Source.ofText (a ++ b)).toList = a.toList ++ b.toList := by
    rw [Source.toList_ofText, String.toList_append]
  have htext' : (Source.ofText (a ++ "0" ++ b)).toList = a.toList ++ '0' :: b.toList := by
    rw [Source.toList_ofText, toList_withZero]
  have hstops : StopsAt isBlank b.toList := by
    rw [hrest]
    exact stopsAt_isBlank (stopsAt_cons (joins_toChar op))
  obtain ⟨hfirst, hunread, hseam⟩ := hstart _ _ htext hstops
  -- the text with the zero begins with the same opener
  obtain ⟨hfirst', hunread', hseam'⟩ := hstart _ _ htext' (stopsAt_cons rfl)
  have hopened := (opens_program hm u.length).opened ⟨hopener, hunread, hunread'⟩ (Nat.le_refl _) hs
  rw [String.length_toList] at hle hseam hseam'
  change Opened m.timeless S E u _ _ r r' at hopened
  generalize r = r, r' = r' at hopened ⊢
  cases hopened with
  | before n hn hend =>
    -- neither has come to the zero, so their places are the same
    have hplace : withZero a.length (v.length + n) = v.length + n := if_pos (by omega)
    have hplaced := placed_withZero a b (n := v.length + n) (by
      rw [String.length_toList]
      omega)
    rw [hplace, Cursor.skip_add, Cursor.skip_add, ← hfirst, ← hfirst'] at hplaced
    exact .inl (hend.placed hplaced)
  | @through k hk t t' ht =>
    -- from here on the one has the sign at hand, and the other has read the zero in front of it
    obtain ⟨value, s₁, s₁', hsign, hnumber, hs₁⟩ := hzero t t' ht
    have hbehind {source : Source} {y : List Char} (hsource : source.toList = a.toList ++ y) :
        ((Cursor.first source).skip a.length).unread = y := by
      rw [Cursor.unread_skip, Cursor.unread_first, hsource, ← String.length_toList, List.drop_left]
    rw [hseam, hseam']
    obtain ⟨n, hn, hend⟩ := expression_padded hm₁ hk hop ((hbehind htext).trans hrest)
      ((hbehind htext').trans (congrArg _ hrest)) hsign hnumber hs₁
    have hplace : withZero a.length (a.length + n) = a.length + 1 + n := by
      rw [withZero, if_neg (by omega)]
      omega
    rw [hbehind htext] at hn
    have hplaced := placed_withZero a b (n := a.length + n) (by
      rw [String.length_toList]
      omega)
    rw [hplace, Cursor.skip_add, Cursor.skip_add, Cursor.skip_add] at hplaced
    exact .inr (hend.placed hplaced)

end Grammar

/-! ## The front ends -/

/-- Zero is the value of a sign that begins an expression, and of the number. -/
theorem Evaluation.zero_eq_number (s : Writing Store) :
    semantics.zero s = .ok 0 s ∧ semantics.number "0" s = .ok 0 s := by
  refine ⟨rfl, ?_⟩
  show Action.ofExcept (Word.ofText "0") s = _
  rw [show Word.ofText "0" = .ok 0 by decide +kernel]
  rfl

namespace Listing

/-- The same listing, and room for more. -/
structure Coded (s s' : Writing Nat) : Prop where
  same : Writing.Same s s'
  code : ∃ code, s.sink.text = listing code

/-- Listings that differ in the instruction for a zero, and room for more. -/
structure Padded (s s' : Writing Nat) : Prop where
  unlimited : s.sink.Unlimited
  unlimited' : s'.sink.Unlimited
  memory : s'.memory = s.memory
  text : ∃ before after, s.sink.text = listing (before ++ .clear :: after) ∧
    s'.sink.text = listing (before ++ .constant "0" :: after)

/-- While the two listings are the same, each step writes the same code to both. -/
theorem simulates_coded : semantics.timeless.Simulates Coded fun _ _ _ => False := by
  rintro step c c' _ s - ⟨⟨rfl, hs⟩, xs, htext⟩
  obtain ⟨answer, hstep⟩ := perform_eq_ok step
  obtain ⟨t, hok, -, hsink, htext'⟩ := hstep s hs
  show StepsAlike _ _ (semantics.perform step s) (semantics.perform step s)
  rw [hok]
  exact ⟨rfl, ⟨rfl, hsink⟩, xs ++ code step, by rw [htext', htext, listing_append]⟩

/-- When they differ in the one instruction, each step writes the same code behind it. -/
theorem simulates_padded : semantics.timeless.Simulates Padded fun _ _ _ => False := by
  rintro step c c' s s' - hs
  obtain ⟨answer, hstep⟩ := perform_eq_ok step
  obtain ⟨t, hok, hmemory, hsink, htext⟩ := hstep s hs.unlimited
  obtain ⟨t', hok', hmemory', hsink', htext'⟩ := hstep s' hs.unlimited'
  obtain ⟨before, after, hbefore, hbefore'⟩ := hs.text
  show StepsAlike _ _ (semantics.perform step s) (semantics.perform step s')
  rw [hok, hok']
  have hcount : t'.memory = t.memory := by rw [hmemory, hmemory', hs.memory]
  refine ⟨rfl, hsink, hsink', hcount, before, after ++ code step, ?_, ?_⟩
  · rw [htext, hbefore, ← listing_append, List.append_assoc, List.cons_append]
  · rw [htext', hbefore', ← listing_append, List.append_assoc, List.cons_append]

/-- Where the listings were the same, those of a sign and of a zero differ in this instruction. -/
theorem padded_of_coded {s s' : Writing Nat} (h : Coded s s') :
    ∃ v t t', semantics.zero s = .ok v t ∧ semantics.number "0" s' = .ok v t' ∧ Padded t t' := by
  obtain ⟨⟨rfl, hs⟩, xs, htext⟩ := h
  obtain ⟨t, hok, hmemory, hsink, hcode⟩ := emits_compile .zero s' hs
  obtain ⟨t', hok', hmemory', hsink', hcode'⟩ := emits_compile (.number "0") s' hs
  refine ⟨(), t, t', hok, hok', hsink, hsink', hmemory'.trans hmemory.symm, xs, [], ?_, ?_⟩
  · rw [hcode, htext, ← listing_append]
    rfl
  · rw [hcode', htext, ← listing_append]
    rfl

end Listing

/-- The reports of work that ends at places that correspond, and never in a step. -/
theorem execute_placed_of_free {μ α : Type} {m : Semantics (Writing μ) α} {memory : μ}
    {place : Nat → Nat} {source source' : Source} {S : Writing μ → Writing μ → Prop}
    (hS : ∀ s s', S s s' → s.sink.Unlimited ∧ s'.sink.Unlimited ∧ s'.memory = s.memory)
    (h : Grammar.EndPlaced S (fun _ _ _ => False) place
      (Grammar.program m.timeless (.start source ⟨memory, {}⟩))
      (Grammar.program m.timeless (.start source' ⟨memory, {}⟩))) :
    let report := execute m.timeless memory source {}
    let report' := execute m.timeless memory source' {}
    report'.result = report.result.mapError (Fault.replaced place) ∧
      ∃ s s', S s s' ∧ report.sink.text = s.sink.text ∧ report'.sink.text = s'.sink.text := by
  intro report report'
  generalize hr : Grammar.program m.timeless (.start source ⟨memory, {}⟩) = r at h
  generalize hr' : Grammar.program m.timeless (.start source' ⟨memory, {}⟩) = r' at h
  -- both end well, with a flush each, or both stop at the same fault
  cases h with
  | @ok _ c c' hc s s' hs =>
    obtain ⟨hsink, hsink', hmemory⟩ := hS s s' hs
    rw [show report = _ from execute_eq_ok hr hsink, show report' = _ from execute_eq_ok hr' hsink']
    exact ⟨congrArg Except.ok hmemory, s, s', hs, s.sink.text_flushed, s'.sink.text_flushed⟩
  | @missing what c c' hc s s' hs =>
    rw [show report = _ from execute_eq_error hr, show report' = _ from execute_eq_error hr']
    exact ⟨rfl, s, s', hs, rfl, rfl⟩
  | failed fault hc hs => exact hs.elim

/-- What is compiled from the text with the zero, beside the text without it. -/
theorem compile_padded {a b : String} (ha : opensExpression a.toList = true)
    (hb : b.toList.head? = some '+' ∨ b.toList.head? = some '-') :
    let report := compile (.ofText (a ++ b))
    let report' := compile (.ofText (a ++ "0" ++ b))
    report'.result = report.result.mapError (Fault.replaced (withZero a.length)) ∧
      (report'.sink.text = report.sink.text ∨ ∃ before after,
        report.sink.text = listing (before ++ .clear :: after) ∧
        report'.sink.text = listing (before ++ .constant "0" :: after)) := by
  intro report report'
  have hstart : Listing.Coded (⟨0, {}⟩ : Writing Nat) ⟨0, {}⟩ :=
    ⟨⟨rfl, Sink.unlimited_empty⟩, [], rfl⟩
  rcases Grammar.program_padded Listing.simulates_coded Listing.simulates_padded
    (fun s s' => Listing.padded_of_coded) ha hb hstart with hends | hends
  · -- what ends before the zero never has an instruction for it
    obtain ⟨hresult, s, s', hs, htext, htext'⟩ := execute_placed_of_free (fun s s' hs => by
      obtain ⟨⟨rfl, hsink⟩, -⟩ := hs
      exact ⟨hsink, hsink, rfl⟩) hends
    obtain ⟨⟨rfl, -⟩, -⟩ := hs
    exact ⟨hresult, .inl (htext'.trans htext.symm)⟩
  · obtain ⟨hresult, s, s', hs, htext, htext'⟩ := execute_placed_of_free (fun s s' hs =>
      ⟨hs.unlimited, hs.unlimited', hs.memory⟩) hends
    obtain ⟨before, after, hbefore, hbefore'⟩ := hs.text
    exact ⟨hresult, .inr ⟨before, after, htext.trans hbefore, htext'.trans hbefore'⟩⟩

/-- The zero has the value that a sign begins with, so the run is the same. -/
theorem run_padded {a b : String} (ha : opensExpression a.toList = true)
    (hb : b.toList.head? = some '+' ∨ b.toList.head? = some '-') :
    (run (.ofText (a ++ b))).Relaid (withZero a.length) (run (.ofText (a ++ "0" ++ b))) := by
  have hsame : Writing.Same (⟨{}, {}⟩ : Writing Store) ⟨{}, {}⟩ := ⟨rfl, Sink.unlimited_empty⟩
  have hsimulates := Evaluation.failsOnly.simulates
  have hzero (s s' : Writing Store) (hs : Writing.Same s s') :
      ∃ v t t', Evaluation.semantics.zero s = .ok v t ∧
        Evaluation.semantics.number "0" s' = .ok v t' ∧ Writing.Same t t' := by
    obtain ⟨rfl, -⟩ := id hs
    obtain ⟨hsign, hnumber⟩ := Evaluation.zero_eq_number s'
    exact ⟨0, s', s', hsign, hnumber, hs⟩
  have hends := Grammar.program_padded hsimulates hsimulates hzero ha hb hsame
  exact execute_placed id (hends.elim id id)

/-- A leading sign is zero padding: where an expression begins with a sign, a zero may be put in
front of it, at any depth and whether the text is a program or not. A run does the same, and a fault
that blames the text behind the zero is one column further on; a fault that does not blame the text
has no column before and after. What is compiled is the same in its result and its number of
instructions, and the listings are the same, or differ in one instruction, that for a zero. -/
theorem sign_is_padding {a b : String} (ha : opensExpression a.toList = true)
    (hb : b.toList.head? = some '+' ∨ b.toList.head? = some '-') :
    (run (.ofText (a ++ b))).Relaid (withZero a.length) (run (.ofText (a ++ "0" ++ b))) ∧
      (compile (.ofText (a ++ "0" ++ b))).result =
        (compile (.ofText (a ++ b))).result.mapError (Fault.replaced (withZero a.length)) ∧
      ((compile (.ofText (a ++ "0" ++ b))).sink.text = (compile (.ofText (a ++ b))).sink.text ∨
        ∃ before after,
          (compile (.ofText (a ++ b))).sink.text = listing (before ++ .clear :: after) ∧
          (compile (.ofText (a ++ "0" ++ b))).sink.text =
            listing (before ++ .constant "0" :: after)) :=
  ⟨run_padded ha hb, compile_padded ha hb⟩

/-- The sign of a factor in parentheses, in a text that ends too early. -/
theorem sign_is_padding_parentheses :
    opensExpression "a=6/( ".toList = true ∧ "-2)*".toList.head? = some '-' ∧
      (run (.ofText ("a=6/( " ++ "-2)*"))).Relaid (withZero 6)
        (run (.ofText ("a=6/( " ++ "0" ++ "-2)*"))) ∧
      (run (.ofText "a=6/( -2)*")).result = .error ⟨.endOfInput "Integer", ⟨10, 10⟩⟩ ∧
      (run (.ofText "a=6/( 0-2)*")).result = .error ⟨.endOfInput "Integer", ⟨11, 11⟩⟩ ∧
      (compile (.ofText "a=6/( -2)*")).sink.text =
        listing [.constant "6", .push, .clear, .push, .constant "2", .sub, .neg, .popDivisor, .div,
          .push] ∧
      (compile (.ofText "a=6/( 0-2)*")).sink.text =
        listing [.constant "6", .push, .constant "0", .push, .constant "2", .sub, .neg,
          .popDivisor, .div, .push] := by
  have ha : opensExpression "a=6/( ".toList = true := by decide
  have hb : "-2)*".toList.head? = some '-' := by decide
  exact ⟨ha, hb, (sign_is_padding ha (.inr hb)).1, by cbv, by cbv, by cbv, by cbv⟩

end OnePass
