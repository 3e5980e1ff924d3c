import OnePass.Semantics

/-!
# Where output goes

A *sink* takes text, and may have room for so many bytes only. A write that does not fit fills the
room there is and fails; once full, the sink takes nothing more. All that is done to a sink is in
its log, writes and flushes alike, in the order in which it was done and with the time by a clock
that the owner of the sink sets.
-/

namespace OnePass

/-- What is done to a sink: a piece of text is written, or the sink is flushed. -/
inductive Output where
  | piece (text : String)
  | flush
  deriving DecidableEq, Repr

namespace Output

/-- The text that is written, none by a flush. -/
def text : Output → String
  | piece text => text
  | flush => ""

def isFlush : Output → Bool
  | piece _ => false
  | flush => true

end Output

/-- What has been done, and for how much there is still room. -/
structure Sink where
  /-- The bytes for which there is room, if there is a limit. -/
  room : Option Nat := none
  flushFails : Bool := false
  /-- The time of what is done next. -/
  clock : Nat := 0
  /-- What was done so far and when, the newest first. -/
  log : List (Nat × Output) := []
  deriving DecidableEq, Repr

namespace Sink

def text (sink : Sink) : String := String.join (sink.log.reverse.map (·.2.text))

/-- How often the sink was flushed. -/
def flushes (sink : Sink) : Nat := sink.log.countP (·.2.isFlush)

/-- What was done at one time, in order. -/
def outputsAt (sink : Sink) (time : Nat) : List Output :=
  (sink.log.reverse.filter (·.1 = time)).map Prod.snd

/-- The longest beginning of a text that takes at most `room` bytes and cuts no character. -/
def fitting : Nat → List Char → List Char
  | _, [] => []
  | room, c :: rest => if c.utf8Size ≤ room then c :: fitting (room - c.utf8Size) rest else []

/-- Notes in the log what is done. -/
def note (sink : Sink) (output : Output) : Sink :=
  { sink with log := (sink.clock, output) :: sink.log }

def append (sink : Sink) (piece : String) : Sink := sink.note (.piece piece)

/-- Writes a text, or as much of it as there is room for. -/
def write (piece : String) : Action Sink Unit := fun sink =>
  match sink.room with
  | none => .ok () (sink.append piece)
  | some room =>
    if piece.utf8ByteSize ≤ room then
      .ok () { sink.append piece with room := some (room - piece.utf8ByteSize) }
    else
      .error (.internal "sink full")
        { sink.append (String.ofList (fitting room piece.toList)) with room := some 0 }

/-- Flushes the sink. A flush that fails is noted, too. -/
def flush : Action Sink Unit := fun sink =>
  if sink.flushFails then .error (.internal "flush failed") (sink.note .flush)
  else .ok () (sink.note .flush)

end Sink

/-! ## A state with a sink -/

/-- The state of a semantics that has a memory and writes to a sink. -/
structure Writing (μ : Type) where
  memory : μ
  sink : Sink

namespace Writing

variable {μ α : Type}

def write (piece : String) : Action (Writing μ) Unit := fun state =>
  match Sink.write piece state.sink with
  | .ok () sink => .ok () { state with sink }
  | .error fault sink => .error fault { state with sink }

def update (change : μ → μ) : Action (Writing μ) Unit :=
  modify fun state => { state with memory := change state.memory }

/-- A semantics whose output is noted with the time, which is how often further text was asked
for. -/
def clocked (m : Semantics (Writing μ) α) : Clocked (Writing μ) α where
  toSemantics := m
  tick cursor state := { state with sink := { state.sink with clock := cursor.source.asked } }

end Writing

end OnePass
