import OnePass.Grammar.Consumption
import OnePass.Proofs.Formation
import OnePass.Proofs.Reading.Lexemes

/-!
# What the steps of a semantics preserve

A parser reads on from where it stands and changes the state of its semantics by the steps that it
hands over, and does nothing else. So a transitive relation that holds between the places before and
after whatever is read, and before and after every step, holds between the start and the end of a
run, whether it succeeds or fails (`Formed.leads`).

Where the relation is one of states, reading is no matter, and it holds between the states before
and after a program (`moves_program`): a log only grows, an output only grows, a variable that no
step sets keeps its value.
-/

namespace OnePass

variable {σ α β : Type}

/-- The state at the end of an action, after a success and after a failure. -/
def Action.ended : EStateM.Result Fault σ β → σ
  | .ok _ state => state
  | .error _ state => state

/-- Whatever comes of a step, it leads along the relation. A subroutine call counts only where there
are calls. -/
structure Clocked.Along (m : Clocked σ α) (R : σ → σ → Prop) : Prop where
  refl : ∀ s, R s s
  trans : ∀ {s t u}, R s t → R t u → R s u
  step : ∀ (step : Step α) (c : Cursor) (s : σ), (step.isCall = true → m.calls = true) →
    R s (Action.ended (m.perform step (m.tick c s)))

/-- What is made of the answer of an action is no matter to its state and its fault. -/
theorem Action.map_apply {γ : Type} (f : β → γ) (action : Action σ β) (s : σ) :
    (f <$> action) s =
      match action s with
      | .ok b s' => .ok (f b) s'
      | .error fault s' => .error fault s' := by
  show EStateM.map f action s = _
  unfold EStateM.map
  cases action s <;> rfl

theorem Action.ended_map {γ : Type} (f : β → γ) (action : Action σ β) (s : σ) :
    Action.ended ((f <$> action) s) = Action.ended (action s) := by
  rw [map_apply]
  cases action s <;> rfl

/-- An answer that something was made of was the answer of the action. -/
theorem Action.map_eq_ok {γ : Type} {f : β → γ} {action : Action σ β} {s s' : σ} {c : γ}
    (h : (f <$> action) s = .ok c s') : ∃ b, action s = .ok b s' ∧ f b = c := by
  rw [map_apply] at h
  cases haction : action s with
  | ok b t =>
    rw [haction] at h
    cases h
    exact ⟨b, rfl, rfl⟩
  | error fault t =>
    rw [haction] at h
    cases h

/-- A fault is that of the action. -/
theorem Action.map_eq_error {γ : Type} {f : β → γ} {action : Action σ β} {s s' : σ} {fault : Fault}
    (h : (f <$> action) s = .error fault s') : action s = .error fault s' := by
  rw [map_apply] at h
  cases haction : action s with
  | ok b t =>
    rw [haction] at h
    cases h
  | error fault' t =>
    rw [haction] at h
    cases h
    rfl

/-- Reading and steps lead along the relation, whatever comes of a step. A subroutine call counts
only where there are calls. -/
structure Clocked.Leads (m : Clocked σ α) (R : Progress σ → Progress σ → Prop) : Prop where
  refl : ∀ p, R p p
  trans : ∀ {p q r}, R p q → R q r → R p r
  read : ∀ (p : Progress σ) {t : List Char} {c : Cursor}, p.cursor.Reads t c →
    R p { p with cursor := c }
  step : ∀ (step : Step α) (p : Progress σ), (step.isCall = true → m.calls = true) →
    R p { p with state := Action.ended (m.perform step (m.tick p.cursor p.state)) }

/-- Reading and steps lead from one place to the other. -/
def Led (m : Clocked σ α) (p q : Progress σ) : Prop :=
  ∀ R : Progress σ → Progress σ → Prop, m.Leads R → R p q

theorem Led.trans {m : Clocked σ α} {p q r : Progress σ} (h : Led m p q) (h' : Led m q r) :
    Led m p r := fun R hR => hR.trans (h R hR) (h' R hR)

/-- A relation of states is one of places. -/
theorem Clocked.Along.leads {m : Clocked σ α} {R : σ → σ → Prop} (h : m.Along R) :
    m.Leads fun p q => R p.state q.state where
  refl p := h.refl p.state
  trans := h.trans
  read p _ _ _ := h.refl p.state
  step step p hcall := h.step step p.cursor p.state hcall

/-! ## Lexemes -/

namespace Lexeme

/-- A lexeme reads some of the text, and nothing where it is missing. -/
def ReadsOn (lexeme : Scan β) : Prop :=
  ∀ c : Cursor, ∃ t, c.Reads t (Action.ended (lexeme c))

/-- A symbol is read with the blanks behind it, or it is missing. -/
theorem readsOn_symbol (x : Char) : ReadsOn (symbol x) := by
  intro c
  cases h : symbol x c with
  | ok b c' =>
    obtain ⟨w, -, hreads⟩ := reads_of_symbol h
    exact ⟨_, hreads⟩
  | error fault c' =>
    unfold symbol at h
    split at h <;> cases h
    exact ⟨[], .refl c⟩

/-- A name is read with the blanks behind it, or it is missing. -/
theorem readsOn_letter : ReadsOn letter := by
  intro c
  cases h : letter c with
  | ok b c' =>
    obtain ⟨x, w, -, -, -, hreads⟩ := reads_of_letter h
    exact ⟨_, hreads⟩
  | error fault c' =>
    unfold letter at h
    split at h <;> cases h
    exact ⟨[], .refl c⟩

/-- A number is read with the blanks behind it, or it is missing. -/
theorem readsOn_digits : ReadsOn digits := by
  intro c
  cases h : digits c with
  | ok b c' =>
    obtain ⟨ds, w, -, -, -, hreads⟩ := reads_of_digits h
    exact ⟨_, hreads⟩
  | error fault c' =>
    unfold digits at h
    split at h <;> cases h
    exact ⟨[], .refl c⟩

/-- The end of a line is never missing, since it may be empty. -/
theorem readsOn_lineEnd : ReadsOn lineEnd := by
  intro c
  cases h : lineEnd c with
  | ok b c' =>
    obtain ⟨e, -, hreads⟩ := reads_of_lineEnd h
    exact ⟨e, hreads⟩
  | error fault c' =>
    unfold lineEnd at h
    split at h <;> cases h

end Lexeme

namespace Grammar

variable {m : Clocked σ α}

/-! ## Places -/

section

variable {R : Progress σ → Progress σ → Prop}

/-- A lexeme moves the cursor and leaves the state. -/
theorem ended_scan (lexeme : Scan β) (p : Progress σ) :
    Action.ended (scan lexeme p) = { p with cursor := Action.ended (lexeme p.cursor) } := by
  unfold scan
  cases lexeme p.cursor <;> rfl

/-- A lexeme leads along the relation, as reading does. -/
theorem leads_scan (hm : m.Leads R) {lexeme : Scan β} (h : Lexeme.ReadsOn lexeme) (p : Progress σ) :
    R p (Action.ended ((scan lexeme : Parser σ β) p)) := by
  obtain ⟨t, hreads⟩ := h p.cursor
  rw [ended_scan]
  exact hm.read p hreads

/-- A run leads along the relation, also when it fails. -/
theorem Formed.leads (hm : m.Leads R) {x : Parser σ β} (h : Formed m x) (p : Progress σ) :
    R p (Action.ended (x p)) := by
  induction h generalizing p with
  | pure b => exact hm.refl p
  | missing what => exact hm.refl p
  | symbol c => exact leads_scan hm (Lexeme.readsOn_symbol c) p
  | letter => exact leads_scan hm Lexeme.readsOn_letter p
  | digits => exact leads_scan hm Lexeme.readsOn_digits p
  | lineEnd => exact leads_scan hm Lexeme.readsOn_lineEnd p
  | @act β step f action hcall hf h =>
    have hstep := hm.step step p hcall
    rw [h, Action.ended_map] at hstep
    unfold Grammar.act
    -- what was done by the step is done by the action that is made of it, also where it fails
    cases haction : action (m.tick p.cursor p.state) with
    | ok b s => rw [haction] at hstep; exact hstep
    | error fault s => rw [haction] at hstep; exact hstep
  | cursor hf hlook ih => exact ih p.cursor p
  | @bind β γ x f hx hf ihx ihf =>
    have hp := ihx p
    rw [bind_apply]
    -- the second parser goes on from where the first one has led
    cases hxp : x p with
    | error fault q =>
      rw [hxp] at hp
      exact hp
    | ok b q =>
      rw [hxp] at hp
      exact hm.trans hp (ihf b q)

/-- A program leads along the relation, since it is formed of lexemes and steps. -/
theorem leads_program (hm : m.Leads R) (p : Progress σ) : R p (Action.ended (program m p)) :=
  (formed_programWithin p.left).leads hm p

end

/-- Steps read nothing. -/
theorem reads_leads (m : Clocked σ α) :
    m.Leads fun p q => ∃ t, p.cursor.Reads t q.cursor where
  refl p := ⟨[], .refl p.cursor⟩
  trans := fun ⟨_, h⟩ ⟨_, h'⟩ => ⟨_, h.trans h'⟩
  read _ _ _ hreads := ⟨_, hreads⟩
  step _ p _ := ⟨[], .refl p.cursor⟩

/-- Whatever is formed reads on from where it starts. -/
theorem Formed.reads {x : Parser σ β} (h : Formed m x) (p : Progress σ) :
    ∃ t, p.cursor.Reads t (Action.ended (x p)).cursor := h.leads (reads_leads m) p

/-! ## States -/

/-- The parser leads the state along the relation, also when it fails. -/
def Moves (R : σ → σ → Prop) (x : Parser σ β) : Prop :=
  ∀ p : Progress σ, R p.state (Action.ended (x p)).state

variable {R : σ → σ → Prop}

/-- Only steps change the state. -/
theorem Formed.moves (hm : m.Along R) {x : Parser σ β} (h : Formed m x) : Moves R x :=
  h.leads hm.leads

/-- What every step leads along, a program leads along. -/
theorem moves_program (hm : m.Along R) : Moves R (program m) := leads_program hm.leads

end Grammar

end OnePass
