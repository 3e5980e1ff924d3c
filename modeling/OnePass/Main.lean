import OnePass.Command.Outcome

/-!
# The command

Reads the files and the standard input of the system, and leaves the rest to the command's
description.
-/

namespace OnePass.Command

/-- The failure that the system reports, by its number, which some calls give with a minus. -/
def failureOf : IO.Error → ReadFailure
  | .noFileOrDirectory _ _ _ => .notFound
  | .inappropriateType file code detail =>
    match min code (0 - code) with
    | 20 => .notDirectory
    | 21 => .isDirectory
    | _ => .other (toString (IO.Error.inappropriateType file code detail))
  | .invalidArgument file code detail =>
    if min code (0 - code) = 36 then .nameTooLong
    else .other (toString (IO.Error.invalidArgument file code detail))
  | error => .other (toString error)

/-- Reads bytes, and takes note of a failure. -/
def attempt (reading : IO ByteArray) : IO (Except ReadFailure ByteArray) := do
  try
    return .ok (← reading)
  catch error =>
    return .error (failureOf error)

/-- Runs the command with its arguments and answers its exit code. -/
def runInSystem (arguments : List String) : IO UInt32 := do
  let stdin ← IO.getStdin
  let outcome ← perform (attempt stdin.readBinToEnd)
    (fun path => attempt (IO.FS.readBinFile path)) arguments argumentParser
  let stdout ← IO.getStdout
  stdout.putStr outcome.stdout
  stdout.flush
  let stderr ← IO.getStderr
  stderr.putStr outcome.stderr
  return outcome.exit.toUInt32

end OnePass.Command

/-- The command. -/
def main (arguments : List String) : IO UInt32 :=
  OnePass.Command.runInSystem arguments
