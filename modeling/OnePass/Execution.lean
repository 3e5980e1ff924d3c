import OnePass.Evaluation
import OnePass.Grammar
import OnePass.Listing

/-!
# Whole programs

A program is read from a source and its output goes to a sink, which is flushed when the program has
ended well. It is either run, which gives the variables at the end, or compiled, which gives the
number of instructions.
-/

namespace OnePass

/-- What came of the work on a program. -/
structure Report (μ : Type) where
  /-- The memory at the end, or the fault that ended the work early. -/
  result : Except Fault μ
  sink : Sink
  source : Source

/-- Works through a program with a semantics that starts from a memory and writes to a sink. The
flush is an action like those of the semantics: the state is told before it where the cursor
stands. -/
def execute {μ α : Type} (m : Clocked (Writing μ) α) (memory : μ) (source : Source)
    (sink : Sink) : Report μ :=
  match Grammar.program m (.start source { memory, sink }) with
  | .error fault p => ⟨.error fault, p.state.sink, p.cursor.source⟩
  | .ok () p =>
    let state := m.tick p.cursor p.state
    match Sink.flush state.sink with
    | .error fault sink => ⟨.error fault, sink, p.cursor.source⟩
    | .ok () sink => ⟨.ok state.memory, sink, p.cursor.source⟩

/-- Runs a program and gives the variables at the end. -/
def run (source : Source) (sink : Sink := {}) : Report Store :=
  execute Evaluation.semantics.timeless {} source sink

/-- Compiles a program and gives the number of instructions. -/
def compile (source : Source) (sink : Sink := {}) : Report Nat :=
  execute Listing.semantics.timeless 0 source sink

end OnePass
