import OnePass.Proofs.Reading.Texts
import OnePass.Trace

/-!
# Which texts are programs

A semantics that never fails leaves the decision to the grammar alone. Then a text is accepted
exactly if a program is spelled before its first `;`, and the cursor stops on that `;` without
having requested anything behind it (`program_ok_iff_sentence`).
-/

namespace OnePass

variable {σ α : Type}

def Step.isCall : Step α → Bool
  | .call _ => true
  | _ => false

/-- No step fails that the grammar hands over: calls are handed over only where there are calls. -/
def Semantics.NeverFails (m : Semantics σ α) : Prop :=
  ∀ (step : Step α) (state : σ), (step.isCall = true → m.calls = true) →
    ∃ value state', m.perform step state = .ok value state'

/-- The text is a program: the characters before its first `;` spell one. -/
def Sentence (calls : Bool) (text : List Char) : Prop :=
  ∃ p rest, text = p ++ ';' :: rest ∧ ';' ∉ p ∧ ∃ statements, Program.Spelled calls statements p

/-! ## Trees never fail where no step does -/

/-- An action whose result is only changed behind it succeeds if the whole does. -/
theorem exists_ok_of_map {β γ : Type} {y : Action σ β} {f : β → γ} {state : σ}
    (h : ∃ c state', (f <$> y) state = .ok c state') : ∃ b state', y state = .ok b state' := by
  obtain ⟨c, state', h⟩ := h
  cases hy : y state with
  | ok b s => exact ⟨b, s, rfl⟩
  | error fault s =>
    have herror : (f <$> y) state = .error fault s := by
      show EStateM.map f y state = .error fault s
      rw [EStateM.map, hy]
    rw [herror] at h
    cases h

namespace Semantics.NeverFails

variable {m : Semantics σ α}

/-- Every step but a call succeeds, and a call does if the grammar has calls. -/
theorem step (hm : m.NeverFails) (step : Step α) (h : step.isCall = false) (state : σ) :
    ∃ value state', m.perform step state = .ok value state' :=
  hm step state fun hcall => absurd hcall (by rw [h]; exact Bool.false_ne_true)

/-- The steps of an expression succeed from any state. The induction is on its spelling, which knows
whether there are calls. -/
theorem drive (hm : m.NeverFails) {level : Level} {e : Expr} {s : List Char}
    (he : Expr.Spelled m.calls level e s) (state : σ) :
    ∃ v state', e.drive m state = .ok v state' := by
  induction he generalizing state with
  | @number ds w hds hw => exact exists_ok_of_map (hm.step (.number (String.ofList ds)) rfl state)
  | @var c w hc hw => exact exists_ok_of_map (hm.step (.load (nameOf c)) rfl state)
  | @call c u v w hcalls hc hu hv hw =>
    exact exists_ok_of_map (hm (.call (nameOf c)) state fun _ => hcalls)
  | parens he hu hw ih => exact ih state
  | term he ih => exact ih state
  | expression he ih => exact ih state
  | @binary level op l r s t w hop hl hr hw ihl ihr =>
    -- the operands are computed around the step that holds the left one
    obtain ⟨left, s₁, hleft⟩ := ihl state
    obtain ⟨held, s₂, hheld⟩ := exists_ok_of_map (hm.step (.hold left) rfl s₁)
    obtain ⟨right, s₃, hright⟩ := ihr s₂
    obtain ⟨v, s₄, hcombine⟩ := exists_ok_of_map (hm.step (.combine op held right) rfl s₃)
    refine ⟨v, s₄, ?_⟩
    rw [Expr.drive, Grammar.action_bind_of_ok hleft, Grammar.action_bind_of_ok hheld,
      Grammar.action_bind_of_ok hright]
    exact hcombine
  | @signed op r t w hop hr hw ih =>
    -- a leading sign is an operator on the zero that is made first
    obtain ⟨left, s₁, hleft⟩ := exists_ok_of_map (hm.step .zero rfl state)
    obtain ⟨held, s₂, hheld⟩ := exists_ok_of_map (hm.step (.hold left) rfl s₁)
    obtain ⟨right, s₃, hright⟩ := ih s₂
    obtain ⟨v, s₄, hcombine⟩ := exists_ok_of_map (hm.step (.combine op held right) rfl s₃)
    refine ⟨v, s₄, ?_⟩
    rw [Expr.drive, Expr.drive, Grammar.action_bind_of_ok hleft, Grammar.action_bind_of_ok hheld,
      Grammar.action_bind_of_ok hright]
    exact hcombine

/-- The steps of a statement succeed from any state. -/
theorem driveStmt (hm : m.NeverFails) {statement : Stmt} {s : List Char}
    (hs : Stmt.Spelled m.calls statement s) (state : σ) :
    ∃ state', statement.drive m state = .ok () state' := by
  cases hs with
  | @print c u w hc hu hw =>
    obtain ⟨_, s₁, hprint⟩ := exists_ok_of_map (hm.step (.print (nameOf c)) rfl state)
    exact ⟨s₁, hprint⟩
  -- an input assigns the value of its digits
  | @input c ds u v w hc hds hu hv hw =>
    obtain ⟨value, s₁, hnumber⟩ :=
      exists_ok_of_map (hm.step (.number (String.ofList ds)) rfl state)
    obtain ⟨_, s₂, hassign⟩ := exists_ok_of_map (hm.step (.assign (nameOf c) value) rfl s₁)
    refine ⟨s₂, ?_⟩
    rw [Stmt.drive, Grammar.action_bind_of_ok hnumber]
    exact hassign
  | @assign c e s u v hc hu hv he =>
    obtain ⟨value, s₁, hvalue⟩ := hm.drive he state
    obtain ⟨_, s₂, hassign⟩ := exists_ok_of_map (hm.step (.assign (nameOf c) value) rfl s₁)
    refine ⟨s₂, ?_⟩
    rw [Stmt.drive, Grammar.action_bind_of_ok hvalue]
    exact hassign

/-- The steps of statements succeed one after another. -/
theorem driveAll (hm : m.NeverFails) {statements : List Stmt} {s : List Char}
    (hs : Statements.Spelled m.calls statements s) (state : σ) :
    ∃ state', OnePass.driveAll m statements state = .ok () state' := by
  induction hs generalizing state with
  | last hs he =>
    obtain ⟨s₁, hstatement⟩ := hm.driveStmt hs state
    refine ⟨s₁, ?_⟩
    rw [OnePass.driveAll, Grammar.action_bind_of_ok hstatement]
    rfl
  | cons hs he hss ih =>
    obtain ⟨s₁, hstatement⟩ := hm.driveStmt hs state
    obtain ⟨s₂, hstatements⟩ := ih s₁
    refine ⟨s₂, ?_⟩
    rw [OnePass.driveAll, Grammar.action_bind_of_ok hstatement]
    exact hstatements

end Semantics.NeverFails

/-- A recording in which no step is told to fail never fails. -/
theorem Trace.neverFails {calls : Trace.Calls} (h : calls ≠ .refused) :
    (Trace.semantics calls).NeverFails := by
  intro step state hcall
  cases step with
  | call name =>
    -- a call reaches a recording only if it has calls, and it was told not to refuse them
    have hnoted : calls = .noted := by
      cases calls with
      | absent => exact absurd (hcall rfl) (by decide)
      | noted => rfl
      | refused => exact absurd rfl h
    subst hnoted
    exact ⟨_, _, rfl⟩
  | zero => exact ⟨_, _, rfl⟩
  | number digits => exact ⟨_, _, rfl⟩
  | load name => exact ⟨_, _, rfl⟩
  | hold lhs => exact ⟨_, _, rfl⟩
  | combine op lhs rhs => exact ⟨_, _, rfl⟩
  | assign name value => exact ⟨_, _, rfl⟩
  | print name => exact ⟨_, _, rfl⟩

namespace Grammar

/-- Under a semantics that never fails, exactly the sentences are accepted. The cursor then stands
on the first `;`, behind the characters before it, and has requested one character more than these;
every other text is refused. -/
theorem program_ok_iff_sentence (m : Semantics σ α) (hm : m.NeverFails) (state : σ)
    (src : String) :
    ((∃ q, program m.timeless (.start (.ofText src) state) = .ok () q) ↔
      Sentence m.calls src.toList) ∧
    (∀ q, program m.timeless (.start (.ofText src) state) = .ok () q →
      ∀ p rest, src.toList = p ++ ';' :: rest → ';' ∉ p →
        q.cursor.AtSentinel p.length rest) ∧
    (¬ Sentence m.calls src.toList →
      ∃ fault q, program m.timeless (.start (.ofText src) state) = .error fault q) := by
  have haccepts : Sentence m.calls src.toList →
      ∃ q, program m.timeless (.start (.ofText src) state) = .ok () q := by
    rintro ⟨p, rest, hsrc, -, statements, hp⟩
    obtain ⟨w, t, hw, ht, hpt⟩ := hp
    obtain ⟨state', hdrive⟩ := hm.driveAll ht state
    exact ⟨_, program_eq_ok m ⟨w, t, hw, ht, hpt⟩ hsrc hdrive⟩
  have hsound : ∀ q, program m.timeless (.start (.ofText src) state) = .ok () q →
      Sentence m.calls src.toList := by
    intro q hq
    obtain ⟨statements, p, rest, hp, hsrc, -, -⟩ := spelled_of_program hq
    exact ⟨p, rest, hsrc, hp.not_mem, statements, hp⟩
  -- acceptance has its two directions; the place and the fault follow from them
  refine ⟨⟨fun ⟨q, hq⟩ => hsound q hq, haccepts⟩, ?_, ?_⟩
  · intro q hq p rest hsrc hp
    obtain ⟨statements, p', rest', hp', hsrc', -, hcursor⟩ := spelled_of_program hq
    -- the text was cut at its first `;` both times
    obtain ⟨rfl, rfl⟩ := eq_of_append_cons (hsrc.symm.trans hsrc') hp hp'.not_mem
    rw [hcursor]
    exact Cursor.atSentinel_skip hsrc
  · intro hnot
    cases hresult : program m.timeless (.start (.ofText src) state) with
    | ok _ q => exact absurd (hsound q hresult) hnot
    | error fault q => exact ⟨fault, q, rfl⟩

/-- A call is a factor of the language with calls only. -/
theorem program_ok_iff_sentence_call :
    (Trace.semantics .noted).NeverFails ∧ (Trace.semantics .absent).NeverFails ∧
      Sentence true "a = f ( )\r\n!b;x".toList ∧ ¬ Sentence false "a = f ( )\r\n!b;x".toList := by
  have hnoted := Trace.neverFails (by decide : Trace.Calls.noted ≠ .refused)
  have habsent := Trace.neverFails (by decide : Trace.Calls.absent ≠ .refused)
  refine ⟨hnoted, habsent, ?_, ?_⟩
  · exact (program_ok_iff_sentence _ hnoted {} "a = f ( )\r\n!b;x").1.1 ⟨_, by cbv⟩
  · intro hsentence
    obtain ⟨q, hq⟩ := (program_ok_iff_sentence _ habsent {} "a = f ( )\r\n!b;x").1.2 hsentence
    have hrun : ∃ fault q, program (Trace.semantics .absent).timeless
        (.start (.ofText "a = f ( )\r\n!b;x") {}) = .error fault q := ⟨_, _, by cbv⟩
    obtain ⟨fault, q', hq'⟩ := hrun
    rw [hq] at hq'
    cases hq'

end Grammar

end OnePass
