import OnePass.Execution

/-!
# Sessions

In a *session* the lines of a program are typed one after another. A line is asked for only when a
character of it is needed, so what the lines so far produce is shown before the next line is asked
for. The *events* of a session are its requests for lines and what was done to its sink, in the
order in which they happen. A request moves the clock of the sink on, so what was done at one time
comes behind as many requests and before the next one.
-/

namespace OnePass.Session

/-- What can be seen of a session from outside. -/
inductive Event where
  /-- A line was asked for, by its number from 0, and was there. -/
  | line (number : Nat)
  /-- A line was asked for, and there was none left. -/
  | endOfInput
  | write (text : String)
  | flush
  deriving DecidableEq, Repr

/-- Puts what was done to a sink in front of events. Texts with nothing between them are one event,
and no text is none. -/
def Event.record (output : Output) (events : List Event) : List Event :=
  match output, events with
  | .flush, events => .flush :: events
  | .piece text, .write more :: events => .write (text ++ more) :: events
  | .piece text, events => if text = "" then events else .write text :: events

/-- What was done to the sink after so many requests for lines and before the next one. -/
def outputs (sink : Sink) (time : Nat) : List Event := (sink.outputsAt time).foldr Event.record []

/-- The request for a line that comes after so many others. -/
def request (lines : Nat) (number : Nat) : Event :=
  if number < lines then .line number else .endOfInput

/-- The events of a session with that many lines. -/
def events {μ : Type} (lines : Nat) (report : Report μ) : List Event :=
  let asked := report.source.asked
  (List.range asked).flatMap (fun time => outputs report.sink time ++ [request lines time])
    ++ outputs report.sink asked

/-- Runs a program that is typed line by line. -/
def run (lines : List String) : Report Store :=
  execute (Writing.clocked Evaluation.semantics) {} (.ofLines lines) {}

def compile (lines : List String) : Report Nat :=
  execute (Writing.clocked Listing.semantics) 0 (.ofLines lines) {}

end OnePass.Session
