import OnePass.Proofs.FrontEnds

/-!
# What the steps of the front ends are made of

A step of evaluation or of compilation looks at the memory, changes it, writes pieces of text, and
does such things one after another: it is *composed* (`Evaluation.composed`, `Listing.composed`). So
what holds of these actions, and of one behind another, holds of every step of both front ends.

Where there is room for everything, it is the memory alone that decides what a composed action
answers, what it leaves in the memory and which pieces it writes; the sink only takes the pieces, at
the time its clock shows (`Composed.exists_effect`).
-/

namespace OnePass

variable {μ β γ : Type}

/-- One action behind another: the second starts where the first ended, unless that failed. -/
theorem Action.bind_apply {σ : Type} (y : Action σ β) (f : β → Action σ γ) (s : σ) :
    (y >>= f) s =
      match y s with
      | .ok b s' => f b s'
      | .error fault s' => .error fault s' := by
  show EStateM.bind y f s = _
  unfold EStateM.bind
  cases y s <;> rfl

/-! ## Composed actions -/

/-- An action that has to do with the memory only. -/
def Writing.onMemory (g : μ → Except Fault β × μ) : Action (Writing μ) β := fun s =>
  match (g s.memory).1 with
  | .ok b => .ok b { s with memory := (g s.memory).2 }
  | .error fault => .error fault { s with memory := (g s.memory).2 }

/-- The action works on the memory and writes, and does nothing else. -/
inductive Composed : {β : Type} → Action (Writing μ) β → Prop
  | memory {β : Type} (g : μ → Except Fault β × μ) : Composed (Writing.onMemory g)
  | write (piece : String) : Composed (Writing.write piece)
  | bind {β γ : Type} {y : Action (Writing μ) β} {f : β → Action (Writing μ) γ} (hy : Composed y)
      (hf : ∀ b, Composed (f b)) : Composed (y >>= f)

/-- To do nothing is to look at the memory and to leave it. -/
theorem composed_pure (b : β) : Composed (pure b : Action (Writing μ) β) :=
  .memory fun memory => (.ok b, memory)

/-- A result that does not depend on the state is composed. -/
theorem composed_ofExcept (r : Except Fault β) :
    Composed (.ofExcept r : Action (Writing μ) β) := by
  cases r with
  | ok b => exact composed_pure b
  | error fault => exact .memory fun memory => (.error fault, memory)

theorem composed_update (change : μ → μ) : Composed (Writing.update change) :=
  .memory fun memory => (.ok (), change memory)

/-- A composed action stays composed when its result is changed. -/
theorem Composed.map {y : Action (Writing μ) β} (hy : Composed y) (f : β → γ) :
    Composed (f <$> y) := by
  rw [map_eq_pure_bind]
  exact hy.bind fun b => composed_pure (f b)

/-! ## Steps -/

/-- Every step of evaluation looks at the memory, changes it, or writes one line. -/
theorem Evaluation.composed (step : Step Word) : Composed (semantics.perform step) := by
  cases step with
  | zero => exact (composed_pure 0).map some
  | number digits => exact (composed_ofExcept _).map some
  | load name =>
    have hload : Composed (semantics.load name) :=
      Composed.memory fun store : Store => (.ok (store.get name), store)
    exact hload.map some
  | call name => exact Composed.map (composed_ofExcept (.error _)) some
  | hold lhs => exact (composed_pure lhs).map some
  | combine op lhs rhs => exact (composed_ofExcept _).map some
  | assign name value =>
    have hassign : Composed (Writing.update fun store : Store => store.set name value) :=
      composed_update _
    exact hassign.map _
  -- to print is to read the variable, then to write its line
  | print name =>
    have hread : Composed (Writing.onMemory fun store : Store => (.ok store, store)) := .memory _
    have hprint : Composed (semantics.print name) :=
      hread.bind fun store => .write ((store.get name).text ++ "\n")
    exact hprint.map _

/-- Every step of compilation writes the lines of its instructions, one by one. -/
theorem Listing.composed (step : Step Unit) : Composed (semantics.perform step) := by
  obtain ⟨f, hf⟩ := perform_eq step
  rw [hf]
  refine Composed.map ?_ f
  unfold compile
  induction code step with
  | nil => exact composed_pure ()
  | cons instruction code ih =>
    have hemit : Composed (emit instruction) :=
      (Composed.write instruction.line).bind fun _ => composed_update _
    exact hemit.bind fun _ => ih

/-! ## With room for everything -/

/-- What an action comes to. -/
structure Effect (μ β : Type) where
  answer : Except Fault β
  memory : μ
  /-- The pieces of text that are written, the newest first. -/
  pieces : List String

/-- An action only writes. It flushes nothing. -/
theorem Effect.not_isFlush (effect : Effect μ β) (time : Nat) :
    ∀ entry ∈ effect.pieces.map fun piece => (time, Output.piece piece),
      entry.2.isFlush = false :=
  List.forall_mem_map.2 fun _ _ => rfl

/-- The end of an action that had the effect where the sink was. -/
def Effect.applied (effect : Effect μ β) (sink : Sink) : EStateM.Result Fault (Writing μ) β :=
  let state : Writing μ := ⟨effect.memory,
    { sink with log := effect.pieces.map (sink.clock, .piece ·) ++ sink.log }⟩
  match effect.answer with
  | .ok b => .ok b state
  | .error fault => .error fault state

/-- With room for everything the memory decides what an action comes to. -/
theorem Composed.exists_effect {y : Action (Writing μ) β} (h : Composed y) (memory : μ) :
    ∃ effect : Effect μ β, ∀ sink : Sink, sink.Unlimited →
      y ⟨memory, sink⟩ = effect.applied sink := by
  induction h generalizing memory with
  | memory g => exact ⟨⟨(g memory).1, (g memory).2, []⟩, fun sink _ => rfl⟩
  | write piece =>
    exact ⟨⟨.ok (), memory, [piece]⟩, fun sink hsink => Writing.write_eq_ok hsink piece⟩
  | @bind β γ y f hy hf ihy ihf =>
    -- the effect of both is that of the first, with that of the second behind it
    obtain ⟨first, hfirst⟩ := ihy memory
    obtain ⟨answer, memory', pieces⟩ := first
    cases answer with
    | error fault =>
      refine ⟨⟨.error fault, memory', pieces⟩, fun sink hsink => ?_⟩
      rw [Action.bind_apply, hfirst sink hsink]
      rfl
    | ok b =>
      obtain ⟨second, hsecond⟩ := ihf b memory'
      refine ⟨{ second with pieces := second.pieces ++ pieces }, fun sink hsink => ?_⟩
      -- the second starts with what the first has written in the log
      have hbehind := hsecond { sink with
        log := pieces.map (sink.clock, .piece ·) ++ sink.log } ⟨hsink.room, hsink.flushFails⟩
      rw [Action.bind_apply, hfirst sink hsink]
      refine hbehind.trans ?_
      rw [Effect.applied, Effect.applied, List.map_append, List.append_assoc]

end OnePass
