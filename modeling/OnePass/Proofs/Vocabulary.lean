import OnePass.Proofs.Evaluation
import OnePass.Proofs.Lookahead
import OnePass.Proofs.Operands

/-!
# What a semantics is told, and what a store may hold

A semantics can rely on what it is told: the names are the letters from `A` to `Z` (`capitals`),
numbers are decimal digits and nothing else, and there are calls only where there are calls in the
language. A parser keeps to this whatever the text is, whatever it is asked for, and however often
it was asked for more after a fault.

* **`keeps_stand`** — what every written step keeps, is kept whatever is asked of a parser.
* **`Evaluation.keeps_lettered`** — a written step keeps a store with letters only.
* **`vocabulary_kept`** — what all semantics are told, what a store may hold in the end, and what it
  means that a literal overflows.
-/

namespace OnePass

variable {σ α : Type}

/-! ## Letters -/

/-- The names that there are. -/
def capitals : List String := "ABCDEFGHIJKLMNOPQRSTUVWXYZ".toList.map Char.toString

/-- The upper-case letters are those from `A` to `Z`. -/
theorem mem_of_isUpper {c : Char} (h : c.isUpper = true) :
    c ∈ "ABCDEFGHIJKLMNOPQRSTUVWXYZ".toList := by
  have hrange : 65 ≤ c.toNat ∧ c.toNat ≤ 90 := by
    simpa [Char.isUpper, UInt32.le_iff_toNat_le] using h
  obtain ⟨hlo, hhi⟩ := hrange
  rw [← Char.ofNat_toNat c]
  -- one letter for each of the 26 numbers
  generalize c.toNat = n at hlo hhi ⊢
  interval_cases n <;> decide

theorem IsName.mem_capitals {name : String} (h : IsName name) : name ∈ capitals := by
  obtain ⟨c, hc, rfl⟩ := h
  exact List.mem_map.2 ⟨c.toUpper, mem_of_isUpper (isUpper_toUpper hc), rfl⟩

/-- The name in a step, if there is one. -/
def Step.name? : Step α → Option String
  | .load name | .call name | .assign name _ | .print name => some name
  | .zero | .number _ | .hold _ | .combine _ _ _ => none

/-- The name in a step that was read is a capital. -/
theorem Step.Written.mem_capitals {step : Step α} (h : step.Written) {name : String}
    (hname : step.name? = some name) : name ∈ capitals := by
  cases step with
  | load other => cases hname; exact IsName.mem_capitals h
  | call other => cases hname; exact IsName.mem_capitals h
  | assign other value => cases hname; exact IsName.mem_capitals h
  | print other => cases hname; exact IsName.mem_capitals h
  | zero => cases hname
  | number digits => cases hname
  | hold lhs => cases hname
  | combine op lhs rhs => cases hname

/-- What a parser may tell a semantics, with calls or without. -/
structure Step.Sayable (calls : Bool) (step : Step α) : Prop where
  name : ∀ name, step.name? = some name → name ∈ capitals
  number : ∀ digits, step = .number digits → Digits digits.toList
  call : step.isCall = true → calls = true

/-- A step that was read is one that may be told. -/
theorem Step.Written.sayable {calls : Bool} {step : Step α} (h : step.Written)
    (hcall : step.isCall = true → calls = true) : step.Sayable calls := by
  refine ⟨fun name => h.mem_capitals, ?_, hcall⟩
  rintro digits rfl
  exact h

/-! ## Whatever is asked of a parser -/

/-- What every written step keeps, is kept whatever is asked of a parser. -/
theorem Grammar.keeps_stand {m : Clocked σ α} {P : σ → Prop} (hm : m.Keeps P) (goals : List Goal)
    {p : Progress σ} (hp : P p.state) : P (stand m goals p).state := by
  induction goals generalizing p with
  | nil => exact hp
  | cons goal goals ih =>
    -- one goal, after which the parser stands where the next one finds it
    rw [stand_cons]
    apply ih
    rw [attempt_snd]
    exact keeps_parse hm goal p hp

/-- All that a semantics is told, with its answers, when a parser of the source is asked for one
thing after another. -/
def callsOf (m : Clocked σ α) (source : Source) (state : σ) (goals : List Grammar.Goal) :
    List (Call α) :=
  (Grammar.stand m.logged goals (.start source { state, place := .start source })).state.calls

/-- What holds of all calls that written steps make holds of all that a parser makes. -/
theorem Clocked.Makes.of_mem_callsOf {m : Clocked σ α} {Q : Call α → Prop} (h : m.Makes Q)
    (source : Source) (state : σ) (goals : List Grammar.Goal) :
    ∀ call ∈ callsOf m source state goals, Q call :=
  Grammar.keeps_stand h.logged_keeps goals (List.forall_mem_nil _)

/-! ## The store of a run -/

/-- The store has values for letters only, in the order of these, and no zeros. -/
structure Store.Lettered (store : Store) : Prop where
  ordered : store.Ordered
  name : ∀ entry ∈ store.entries, entry.1 ∈ capitals
  ne_zero : ∀ entry ∈ store.entries, entry.2 ≠ 0

namespace Store.Lettered

/-- A store without entries has nothing wrong in it. -/
theorem empty : Lettered {} := ⟨ordered_empty, List.forall_mem_nil _, List.forall_mem_nil _⟩

/-- An assignment to a letter keeps the store so: a zero is no entry. -/
theorem set {store : Store} (h : store.Lettered) {name : String} (hname : name ∈ capitals)
    (value : Word) : (store.set name value).Lettered := by
  refine ⟨h.ordered.set name value, fun entry hentry => ?_, fun entry hentry => ?_⟩
  · rcases mem_set.1 hentry with ⟨rfl, -⟩ | ⟨hold, -⟩
    · exact hname
    · exact h.name entry hold
  · rcases mem_set.1 hentry with ⟨rfl, hvalue⟩ | ⟨hold, -⟩
    · exact hvalue
    · exact h.ne_zero entry hold

/-- There are no more entries than letters. -/
theorem length_le {store : Store} (h : store.Lettered) : store.entries.length ≤ 26 := by
  -- different names, all of them among the letters
  have hsubset : store.entries.map Prod.fst ⊆ capitals := by
    intro name hname
    obtain ⟨entry, hentry, rfl⟩ := List.mem_map.1 hname
    exact h.name entry hentry
  have hlength := (List.subperm_of_subset h.ordered.nodup hsubset).length_le
  rwa [List.length_map, show capitals.length = 26 by decide] at hlength

end Store.Lettered

namespace Evaluation

/-- The states of a run that parsers may leave: at first all variables are zero, and then any source
is worked through, with whatever is asked of its parser. -/
inductive Reachable : Writing Store → Prop
  | fresh (sink : Sink) : Reachable { memory := {}, sink }
  | asked {state : Writing Store} (h : Reachable state) (source : Source)
      (goals : List Grammar.Goal) :
      Reachable (Grammar.stand semantics.timeless goals (.start source state)).state

/-- A step other than an assignment leaves the store as it is. -/
theorem memory_perform {step : Step Word} (h : ∀ name value, step ≠ .assign name value)
    (s : Writing Store) : (Action.ended (semantics.perform step s)).memory = s.memory := by
  cases step with
  | zero => rfl
  | load name => rfl
  | call name => rfl
  | hold lhs => rfl
  | assign name value => exact absurd rfl (h name value)
  | number digits =>
    show (Action.ended ((some <$> Action.ofExcept (Word.ofText digits)) s)).memory = _
    rw [Action.ended_map]
    cases Word.ofText digits <;> rfl
  | combine op lhs rhs =>
    show (Action.ended ((some <$> Action.ofExcept (op.apply lhs rhs)) s)).memory = _
    rw [Action.ended_map]
    cases op.apply lhs rhs <;> rfl
  | print name =>
    show (Action.ended (((fun _ => none) <$> semantics.print name) s)).memory = _
    rw [Action.ended_map]
    show (Action.ended (Writing.write _ s)).memory = _
    unfold Writing.write
    cases Sink.write _ s.sink <;> rfl

/-- A written step keeps a store with letters only. -/
theorem keeps_lettered : semantics.timeless.Keeps fun s => s.memory.Lettered := by
  intro step c s hwritten _ hs
  show (Action.ended (semantics.perform step s)).memory.Lettered
  -- only an assignment changes the store, and its name was read as a letter
  cases step with
  | assign name value => exact hs.set (IsName.mem_capitals hwritten) value
  | _ =>
    rw [memory_perform]
    · exact hs
    · nofun

theorem Reachable.lettered {state : Writing Store} (h : Reachable state) :
    state.memory.Lettered := by
  induction h with
  | fresh sink => exact .empty
  | asked h source goals ih => exact Grammar.keeps_stand keeps_lettered goals ih

/-- A literal has the value of its digits, or overflows because that is too large. -/
theorem makes_numbers : semantics.timeless.Makes fun call =>
    ∀ digits, call.step = .number digits →
      (call.answer = .error .overflow ↔ 2147483647 < decimal digits) ∧
        ∀ value, call.answer = .ok value →
          ∃ w : Word, value = some w ∧ w.toInt = decimal digits := by
  rintro _ c s hwritten - digits rfl
  -- digits that were read have no sign, so all is settled by their value
  have htext : Word.ofText digits = Word.ofInt (decimal digits) := by
    have hofText := Word.ofText_of_digits hwritten
    rwa [String.ofList_toList] at hofText
  have hanswer : Action.answer (semantics.perform (.number digits) s) =
      some <$> Word.ofInt (decimal digits) := by
    show Action.answer ((some <$> Action.ofExcept (Word.ofText digits)) s) = _
    rw [htext, Action.map_apply]
    cases Word.ofInt (decimal digits) <;> rfl
  show (Action.answer (semantics.perform (.number digits) s) = _ ↔ _) ∧
    ∀ value, Action.answer (semantics.perform (.number digits) s) = _ → _
  rw [hanswer]
  by_cases hrange : InRange (decimal digits)
  · rw [Word.ofInt_of_inRange hrange]
    have hhi := hrange.2
    refine ⟨⟨nofun, fun hlarge => by omega⟩, ?_⟩
    rintro _ ⟨rfl⟩
    exact ⟨_, rfl, Word.toInt_ofInt hrange⟩
  · rw [Word.ofInt_of_not_inRange hrange]
    unfold InRange at hrange
    exact ⟨⟨fun _ => by omega, fun _ => rfl⟩, nofun⟩

end Evaluation

/-! ## The vocabulary -/

/-- Whatever is asked of a parser, of whatever text and after whatever faults: the semantics is told
of letters, of decimal digits, and of calls only if it has calls. So a store that parsers may leave
has at most one entry for each letter, and none that is zero; and a literal overflows exactly if its
digits denote a number that is too large. -/
theorem vocabulary_kept :
    (∀ {σ α : Type} (m : Clocked σ α) (source : Source) (state : σ) (goals : List Grammar.Goal),
      ∀ call ∈ callsOf m source state goals,
        (∀ name, call.step.name? = some name → name ∈ capitals) ∧
        (∀ digits, call.step = .number digits → Digits digits.toList) ∧
        (call.step.isCall = true → m.calls = true)) ∧
    (∀ state, Evaluation.Reachable state →
      (∀ entry ∈ state.memory.entries, entry.1 ∈ capitals ∧ entry.2 ≠ 0) ∧
        (state.memory.entries.map Prod.fst).Nodup ∧ state.memory.entries.length ≤ 26) ∧
    (∀ (source : Source) (state : Writing Store) (goals : List Grammar.Goal),
      ∀ call ∈ callsOf Evaluation.semantics.timeless source state goals,
        ∀ digits, call.step = .number digits →
          (call.answer = .error .overflow ↔ 2147483647 < decimal digits) ∧
            ∀ value, call.answer = .ok value →
              ∃ w : Word, value = some w ∧ w.toInt = decimal digits) := by
  refine ⟨fun m source state goals => ?_, fun state hstate => ?_, fun source state goals => ?_⟩
  · -- one statement of all steps for any semantics
    have hmakes : m.Makes fun call => call.step.Sayable m.calls :=
      fun _ _ _ hwritten hcall => hwritten.sayable hcall
    intro call hcall
    have hsayable := hmakes.of_mem_callsOf source state goals call hcall
    exact ⟨hsayable.name, hsayable.number, hsayable.call⟩
  · have hlettered := hstate.lettered
    refine ⟨fun entry hentry => ?_, hlettered.ordered.nodup, hlettered.length_le⟩
    exact ⟨hlettered.name entry hentry, hlettered.ne_zero entry hentry⟩
  · exact Evaluation.makes_numbers.of_mem_callsOf source state goals

/-- A literal that is too large by one, in a text that is read on behind it. -/
theorem vocabulary_kept_overflow :
    let calls := callsOf Evaluation.semantics.timeless (.ofText "a=7 b=2147483648 c") ⟨{}, {}⟩
      [.program, .expression]
    calls.map Call.step =
      [.number "7", .assign "A" 7, .number "2147483648", .load "C"] ∧
    (∀ call ∈ calls, ∀ name, call.step.name? = some name → name ∈ capitals) ∧
    ∀ call ∈ calls, call.step = .number "2147483648" → call.answer = .error .overflow := by
  have hsteps : (callsOf Evaluation.semantics.timeless (.ofText "a=7 b=2147483648 c") ⟨{}, {}⟩
      [.program, .expression]).map Call.step =
      [.number "7", .assign "A" 7, .number "2147483648", .load "C"] := by
    decide +kernel
  obtain ⟨htold, -, hliteral⟩ := vocabulary_kept
  refine ⟨hsteps, fun call hcall => (htold _ _ _ _ call hcall).1, fun call hcall hstep => ?_⟩
  exact (hliteral _ _ _ call hcall _ hstep).1.2 (by decide)

end OnePass
