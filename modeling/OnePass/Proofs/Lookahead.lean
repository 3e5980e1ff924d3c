import OnePass.Proofs.Blame
import OnePass.Proofs.Goals
import OnePass.Proofs.Independence

/-!
# One character of lookahead

Someone who types a program is asked for a character only if the parser has used up all that came
before it. Whatever is asked of a parser, in whatever order and with whatever faults on the way, it
holds one character that it has not consumed, never consumes a `;`, and depends on no character that
it has not requested (`attempts_look_ahead`).

Every attempt reads some characters and does the same at any other place where these stand and the
one behind them (`local_parse`). The characters that several attempts read are those of the first
and then those of the others, so the same holds of a list of attempts (`attempts_same`). The steps
that are handed over are seen in the state of a semantics that notes them (`Semantics.noted`), and
to note them is no matter to what the attempts do (`attempt_refines`).
-/

namespace OnePass

/-- Cursors with the same text ahead are in the same column. -/
theorem Cursor.SameFor.column {n : Nat} {c c' : Cursor} (h : c.SameFor n c') :
    c'.column = c.column := by
  rw [Cursor.column, Cursor.column, h.look, h.offset]

/-- The semantics that does the same and notes its steps, and not where the cursor stands. -/
def Semantics.noted {σ α : Type} (m : Semantics σ α) : Semantics (Logged σ α) α :=
  m.timeless.logged.toSemantics

/-- To note the calls changes nothing of what they do. -/
theorem refines_noted {σ α : Type} (m : Semantics σ α) :
    m.noted.timeless.Refines m.timeless Logged.state := by
  refine ⟨rfl, fun step c l => ?_⟩
  have hnoted : m.noted.timeless.perform step (m.noted.timeless.tick c l) = _ :=
    m.timeless.perform_logged step l
  rw [hnoted]
  cases h : m.timeless.perform step l.state <;> exact h

namespace Grammar

variable {σ α : Type}

/-- Where a parser stands before it is asked for anything, and after each of the attempts. -/
def stands (m : Clocked σ α) (goals : List Goal) (p : Progress σ) : List (Progress σ) :=
  p :: (attempts m goals p).map Prod.snd

/-- Where a parser stands when all has been asked. -/
def stand (m : Clocked σ α) (goals : List Goal) (p : Progress σ) : Progress σ :=
  (stands m goals p).getLast (List.cons_ne_nil _ _)

theorem stands_cons (m : Clocked σ α) (goal : Goal) (goals : List Goal) (p : Progress σ) :
    stands m (goal :: goals) p = p :: stands m goals (attempt m goal p).2 := rfl

theorem stand_cons (m : Clocked σ α) (goal : Goal) (goals : List Goal) (p : Progress σ) :
    stand m (goal :: goals) p = stand m goals (attempt m goal p).2 :=
  List.getLast_cons (List.cons_ne_nil _ _)

/-- Attempts go on where those before have left off. -/
theorem stand_append (m : Clocked σ α) (goals later : List Goal) (p : Progress σ) :
    stand m (goals ++ later) p = stand m later (stand m goals p) := by
  induction goals generalizing p with
  | nil => rfl
  | cons goal goals ih => rw [List.cons_append, stand_cons, stand_cons, ih]

/-- What comes of an attempt as it is seen from outside: the answer, the character at hand with its
column, and the state of the semantics. -/
structure Sight (σ α : Type) where
  answer : Except Fault (Option α)
  look : Option Char
  column : Column
  state : σ

def Sight.of (attempted : Except Fault (Option α) × Progress σ) : Sight σ α where
  answer := attempted.1
  look := attempted.2.cursor.look
  column := attempted.2.cursor.column
  state := attempted.2.state

/-! ## Places in a text -/

/-- The cursor has read the text so far, and no `;` of it. -/
structure Within (src : String) (c : Cursor) : Prop where
  le : c.offset ≤ src.toList.length
  cursor : c = (Cursor.first (.ofText src)).skip c.offset
  not_mem : ';' ∉ src.toList.take c.offset

/-- What was read without a `;` is in front of all of them. -/
theorem Within.of_reads {src : String} {t : List Char} {c : Cursor}
    (h : (Cursor.first (.ofText src)).Reads t c) (ht : ';' ∉ t) : Within src c := by
  have hunread := h.unread
  rw [Cursor.unread_first_ofText] at hunread
  have hle : t.length ≤ src.toList.length := by
    rw [hunread, List.length_append]
    exact Nat.le_add_right _ _
  have hoffset : c.offset = t.length := by rw [h.eq_skip, (Cursor.offset_skip_first hle).1]
  refine ⟨hoffset ▸ hle, hoffset ▸ h.eq_skip, ?_⟩
  rwa [hoffset, hunread, List.take_left]

/-- A cursor in the text has read what stands before it. -/
theorem Within.reads {src : String} {c : Cursor} (h : Within src c) :
    (Cursor.first (.ofText src)).Reads (src.toList.take c.offset) c := by
  refine ⟨?_, ?_⟩
  · have hbehind := congrArg Cursor.unread h.cursor
    rw [Cursor.unread_skip, Cursor.unread_first_ofText] at hbehind
    rw [Cursor.unread_first_ofText, hbehind, List.take_append_drop]
  · rw [List.length_take, Nat.min_eq_left h.le]
    exact h.cursor

/-- To read on without a `;` stays in front of it. -/
theorem Within.read_on {src : String} {t : List Char} {c c' : Cursor} (h : Within src c)
    (hreads : c.Reads t c') (ht : ';' ∉ t) : Within src c' := by
  refine .of_reads (h.reads.trans hreads) fun hmem => ?_
  rcases List.mem_append.1 hmem with hmem | hmem
  · exact h.not_mem hmem
  · exact ht hmem

theorem Within.start (src : String) : Within src (.start (.ofText src)) := by
  obtain ⟨w, hw, hreads⟩ := reads_skipBlanks (Cursor.first (.ofText src))
  rw [← Cursor.start_eq] at hreads
  exact .of_reads hreads hw.not_mem

/-- One character more has been requested than consumed. -/
theorem Within.requests {src : String} {c : Cursor} (h : Within src c) :
    c.source.requests = c.offset + 1 := by
  conv_lhs => rw [h.cursor]
  exact (Cursor.offset_skip_first h.le).2

theorem Within.offset_le {src : String} {c : Cursor} {j : Nat} (h : Within src c)
    (hj : src.toList[j]? = some ';') : c.offset ≤ j := by
  by_contra hlt
  have htake : (src.toList.take c.offset)[j]? = some ';' := by
    rw [List.getElem?_take_of_lt (Nat.lt_of_not_le hlt), hj]
  exact h.not_mem (List.mem_of_getElem? htake)

/-- No attempt leaves the text, nor passes a `;`. Induction on the goals. -/
theorem within_of_mem_stands {m : Clocked σ α} {goals : List Goal} {src : String}
    {p : Progress σ} (hp : Within src p.cursor) : ∀ q ∈ stands m goals p, Within src q.cursor := by
  induction goals generalizing p with
  | nil => exact List.forall_mem_singleton.2 hp
  | cons goal goals ih =>
    obtain ⟨t, ht, hreads⟩ := reads_attempt m goal p
    rw [stands_cons, List.forall_mem_cons]
    exact ⟨hp, ih (hp.read_on hreads ht)⟩

/-! ## Two texts -/

/-- An attempt reads some characters and does the same wherever these stand and the one behind
them. -/
theorem attempt_same (m : Semantics σ α) (goal : Goal) (c : Cursor) (s : σ) :
    ∃ n answer s', n ≤ c.unread.length ∧ ∀ c', c.SameFor n c' →
      attempt m.timeless goal ⟨c', s⟩ = (answer, ⟨c'.skip n, s'⟩) := by
  obtain ⟨n, hn, hplaced⟩ := local_parse m goal c s
  cases hparse : parse m.timeless goal ⟨c, s⟩ with
  | ok value q =>
    refine ⟨n, .ok value, q.state, hn, fun c' hc' => ?_⟩
    rw [attempt, hplaced c' hc', hparse]
    rfl
  | error fault q =>
    refine ⟨n, .error fault, q.state, hn, fun c' hc' => ?_⟩
    rw [attempt, hplaced c' hc', hparse]
    rfl

/-- What several attempts read, the first reads and then the others. -/
theorem attempts_same (m : Semantics σ α) (goals : List Goal) (c : Cursor) (s : σ) :
    ∃ n sights s', n ≤ c.unread.length ∧ ∀ c', c.SameFor n c' →
      (attempts m.timeless goals ⟨c', s⟩).map Sight.of = sights ∧
        stand m.timeless goals ⟨c', s⟩ = ⟨c'.skip n, s'⟩ := by
  induction goals generalizing c s with
  | nil => exact ⟨0, [], s, Nat.zero_le _, fun _ _ => ⟨rfl, rfl⟩⟩
  | cons goal goals ih =>
    obtain ⟨n, answer, s₁, hn, hfirst⟩ := attempt_same m goal c s
    obtain ⟨k, sights, s₂, hk, hothers⟩ := ih (c.skip n) s₁
    rw [Cursor.unread_skip, List.length_drop] at hk
    -- the others read on behind the first, so together they depend on what both have read
    refine ⟨n + k, ⟨answer, (c.skip n).look, (c.skip n).column, s₁⟩ :: sights, s₂, by omega,
      fun c' hc' => ?_⟩
    have hattempt := hfirst c' (hc'.mono (Nat.le_add_right n k))
    have hbehind := hc'.skip hn
    obtain ⟨hsights, hstand⟩ := hothers (c'.skip n) hbehind
    refine ⟨?_, ?_⟩
    · rw [attempts, hattempt, List.map_cons, hsights, Sight.of, hbehind.look, hbehind.column]
    · rw [stand_cons, hattempt, hstand, Cursor.skip_add]

/-! ## Noting the steps

A goal makes the same calls to a semantics and to the one that notes them, and these answer
alike. -/

section

variable {calls : Bool} {m : Clocked σ α} {w : List α}

/-- The answer to a goal, given the answer of a recording, which has the number of a value. -/
def Answers (values : List α) (recorded : Option Nat) (answer : Option α) : Prop :=
  answer = recorded.bind fun n => values[n]?

/-- A line end that must be there is missed in both runs or in neither. -/
theorem mirrors_requiredLineEnd :
    Mirrors m w (requiredLineEnd : Parser (Logged Trace Nat) Unit) requiredLineEnd
      fun _ _ _ => True := by
  refine Mirrors.scan_bind fun seen => ?_
  cases seen with
  | true => exact mirrors_pure fun _ _ => trivial
  | false => exact mirrors_missing _

/-- What a parser without a value does, a goal does that has it for a production. -/
theorem Mirrors.noAnswer {x : Parser (Logged Trace Nat) Unit} {y : Parser σ Unit}
    (h : Mirrors m w x y fun _ _ _ => True) :
    Mirrors m w ((fun _ => none) <$> x) ((fun _ => none) <$> y) Answers := by
  rw [map_eq_pure_bind, map_eq_pure_bind]
  exact h.bind true (fun _ => .pure none) fun _ _ _ _ _ => mirrors_pure fun _ _ => rfl

/-- Whatever is asked for, the recording mirrors it. -/
theorem mirrors_parseWithin (hcalls : m.calls = calls) (n : Nat) (goal : Goal) :
    Mirrors m w (parseWithin (recorder calls) n goal) (parseWithin m n goal) Answers := by
  cases goal with
  | program => exact (mirrors_programWithin hcalls n).noAnswer
  | statement => exact (mirrors_statementWithin hcalls n).noAnswer
  | assignmentLine =>
    refine Mirrors.noAnswer ?_
    refine (mirrors_assignmentWithin hcalls n).bind calls (fun _ => formed_requiredLineEnd) ?_
    exact fun _ _ _ _ _ => mirrors_requiredLineEnd
  | expression =>
    have hfactor := formed_factorWithin (m := recorder calls) n
    rw [parseWithin, parseWithin, map_eq_pure_bind, map_eq_pure_bind]
    refine (mirrors_expressionWithin (fun w => mirrors_factorWithin hcalls n) hfactor n).bind calls
      (fun _ => .pure _) fun w' k a _ hka => mirrors_pure fun values hw => ?_
    exact (hka.mono hw).symm

end

/-- What a goal makes of a recording that never fails. -/
def recording (calls : Bool) (goal : Goal) (c : Cursor) :
    EStateM.Result Fault (Progress (Logged Trace Nat)) (Option Nat) :=
  parseWithin (recorder calls) c.unread.length goal ⟨c, {}, c, []⟩

/-- A goal does to a semantics what a replay of its recording does. -/
theorem parse_mirrors (m : Clocked σ α) (goal : Goal) (c : Cursor) (s : σ) :
    EndsLike Answers [] (recording m.calls goal c) (parse m goal ⟨c, s⟩)
      (m.replay (Action.ended (recording m.calls goal c)).state.calls [] s) := by
  obtain ⟨calls, hcalls, hends⟩ := mirrors_parseWithin (m := m) (w := []) rfl c.unread.length goal
    c ⟨{}, c, []⟩ [] s List.prefix_rfl rfl
  have hbound : parseWithin m c.unread.length goal ⟨c, s⟩ = parse m goal ⟨c, s⟩ :=
    agreeUpTo_parse m goal (Nat.le_refl _) (Nat.le_refl _)
  rw [show (Action.ended (recording m.calls goal c)).state.calls = calls from hcalls, ← hbound]
  exact hends

/-- Nor is it to what comes of an attempt. -/
theorem attempt_refines {τ : Type} {m' : Clocked τ α} {m : Clocked σ α} {erase : τ → σ}
    (h : m'.Refines m erase) (goal : Goal) (c : Cursor) (t : τ) :
    ∃ answer c' t', attempt m' goal ⟨c, t⟩ = (answer, ⟨c', t'⟩) ∧
      attempt m goal ⟨c, erase t⟩ = (answer, ⟨c', erase t'⟩) := by
  have hplain := parse_mirrors m goal c (erase t)
  have hmore := parse_mirrors m' goal c t
  rw [h.calls] at hmore
  generalize recording m.calls goal c = recorded at hplain hmore
  -- both do the calls of one recording, so only the states have to be compared
  have hreplay := h.replay (Action.ended recorded).state.calls [] t
  cases hsteps : m'.replay (Action.ended recorded).state.calls [] t with
  | stuck => rw [hsteps] at hmore; exact hmore.elim
  | failed place fault t' =>
    rw [hsteps] at hmore hreplay
    rw [show m.replay _ _ _ = _ from hreplay] at hplain
    refine ⟨.error fault, place, t', ?_, ?_⟩
    · rw [attempt, show parse _ _ _ = _ from hmore]
    · rw [attempt, show parse _ _ _ = _ from hplain]
  | complete values t' =>
    rw [hsteps] at hmore hreplay
    rw [show m.replay _ _ _ = _ from hreplay] at hplain
    obtain ⟨-, -, hmore⟩ := hmore
    obtain ⟨-, -, hplain⟩ := hplain
    cases recorded with
    | error fault q =>
      refine ⟨.error fault, q.cursor, t', ?_, ?_⟩
      · rw [attempt, show parse _ _ _ = _ from hmore]
      · rw [attempt, show parse _ _ _ = _ from hplain]
    | ok number q =>
      obtain ⟨answer, hmore, rfl⟩ := hmore
      obtain ⟨answer', hplain, rfl⟩ := hplain
      refine ⟨.ok (number.bind fun n => values[n]?), q.cursor, t', ?_, ?_⟩
      · rw [attempt, hmore]
      · rw [attempt, hplain]

/-- To erase what was noted commutes with a list of attempts. -/
theorem stand_refines {τ : Type} {m' : Clocked τ α} {m : Clocked σ α} {erase : τ → σ}
    (h : m'.Refines m erase) (goals : List Goal) (c : Cursor) (t : τ) :
    stand m goals ⟨c, erase t⟩ =
      ⟨(stand m' goals ⟨c, t⟩).cursor, erase (stand m' goals ⟨c, t⟩).state⟩ := by
  induction goals generalizing c t with
  | nil => rfl
  | cons goal goals ih =>
    obtain ⟨answer, c', t', hmore, hplain⟩ := attempt_refines h goal c t
    rw [stand_cons, stand_cons, hmore, hplain, ih]

/-! ## Whole texts -/

/-- Where two texts begin with the characters that were requested of the one, a parser has the same
sights of both. -/
theorem sights_eq (m : Semantics σ α) (goals : List Goal) (state : σ) {src src' : String}
    (h : src'.toList.take
        (stand m.timeless goals (.start (.ofText src) state)).cursor.source.requests =
      src.toList.take
        (stand m.timeless goals (.start (.ofText src) state)).cursor.source.requests) :
    (Cursor.start (.ofText src)).SameFor 0 (.start (.ofText src')) ∧
      (attempts m.timeless goals (.start (.ofText src') state)).map Sight.of =
        (attempts m.timeless goals (.start (.ofText src) state)).map Sight.of := by
  obtain ⟨w, hw, hblanks⟩ := reads_skipBlanks (Cursor.first (.ofText src))
  obtain ⟨n, sights, s', hn, hsights⟩ := attempts_same m goals (.start (.ofText src)) state
  have hend := congrArg Progress.cursor (hsights _ (.refl n _)).2
  rw [Cursor.start_eq, hblanks.eq_skip, ← Cursor.skip_add] at hend
  -- as many characters are requested as are read, and one more
  have hlength : w.length + n ≤ src.toList.length := by
    rw [← Cursor.unread_first_ofText, hblanks.unread, List.length_append, ← Cursor.start_eq]
    omega
  rw [Progress.start, Cursor.start_eq, hblanks.eq_skip, hend,
    (Cursor.offset_skip_first hlength).2] at h
  have hfirst := Cursor.sameFor_first h
  have hstart : Cursor.start (.ofText src') = (Cursor.first (.ofText src')).skip w.length :=
    (hfirst.mono (Nat.le_add_right _ n)).skipBlanks_eq hw hblanks
  have hle : w.length ≤ (Cursor.first (.ofText src)).unread.length := by
    rw [Cursor.unread_first_ofText]
    omega
  have hsame := hfirst.skip hle
  rw [← hblanks.eq_skip, ← Cursor.start_eq, ← hstart] at hsame
  refine ⟨hsame.mono (Nat.zero_le n), ?_⟩
  rw [Progress.start, Progress.start, (hsights _ hsame).1, (hsights _ (.refl n _)).1]

/-- Whatever is asked of a parser, at every time it has requested one character more than it has
consumed, and none behind a `;`. Texts that begin with the characters requested at the end do the
same to a parser and its semantics, whichever it is: there are the same sights from the start to the
end, and the same steps are handed over with the same answers. -/
theorem attempts_look_ahead (m : Semantics σ α) (src : String) (state : σ) (goals : List Goal) :
    let begin (src : String) : Progress σ := .start (.ofText src) state
    let beginNoted (src : String) : Progress (Logged σ α) :=
      .start (.ofText src) { state, place := .start (.ofText "") }
    (∀ q ∈ stands m.timeless goals (begin src),
      q.cursor.source.requests = q.cursor.offset + 1 ∧
        ∀ j, src.toList[j]? = some ';' → q.cursor.source.requests ≤ j + 1) ∧
    ∀ src' : String,
      let r := (stand m.timeless goals (begin src)).cursor.source.requests
      src'.toList.take r = src.toList.take r →
        (begin src').cursor.look = (begin src).cursor.look ∧
        (begin src').cursor.column = (begin src).cursor.column ∧
        (attempts m.timeless goals (begin src')).map Sight.of =
          (attempts m.timeless goals (begin src)).map Sight.of ∧
        (attempts m.noted.timeless goals (beginNoted src')).map Sight.of =
          (attempts m.noted.timeless goals (beginNoted src)).map Sight.of := by
  intro begin beginNoted
  refine ⟨fun q hq => ?_, ?_⟩
  · -- one character is requested that was not consumed
    have hwithin : Within src q.cursor := within_of_mem_stands (Within.start src) q hq
    refine ⟨hwithin.requests, fun j hj => ?_⟩
    rw [hwithin.requests]
    exact Nat.succ_le_succ (hwithin.offset_le hj)
  · intro src' r hr
    obtain ⟨hsame, hsights⟩ := sights_eq m goals state hr
    -- the noting semantics stands at the same place, so it has requested as much
    have hnoted : (stand m.noted.timeless goals (beginNoted src)).cursor.source.requests = r :=
      congrArg (fun p => p.cursor.source.requests) (stand_refines (refines_noted m) goals _ _).symm
    rw [← hnoted] at hr
    exact ⟨hsame.look.symm, hsame.column, hsights, (sights_eq m.noted goals _ hr).2⟩

end Grammar

end OnePass
