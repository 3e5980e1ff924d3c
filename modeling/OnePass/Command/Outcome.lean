import OnePass.Command.Arguments
import OnePass.Execution
import OnePass.Folder
import OnePass.Text.Plain

/-!
# What the command does

The command runs or compiles the program in a file, or on its standard input where no file is named.
The whole text is read and checked before anything is done with it. What can be seen of the command
afterwards is its *outcome*: two texts and an exit code.

How the arguments are taken is not the command's own matter: an *argument parser* hands it the
options, or ends it at once with an outcome (`ArgumentParser`). The command works with any
(`perform`); the one here also shows help and reports mistakes (`argumentParser`).
-/

namespace OnePass.Command

/-- What can be seen of a command that has ended. -/
structure Outcome where
  exit : Nat
  stdout : String := ""
  stderr : String := ""
  deriving DecidableEq, Repr

/-! ## Help and mistakes -/

/-- The name and the version of the command. -/
def versionText : String := "cradle-lang 0.3.0\n"

/-- A line that shows how the command is called. -/
def usage (parts : List String) : String := "Usage: " ++ " ".intercalate ("cradle" :: parts)

/-- The line for a call in general. -/
def generalUsage : String := usage ["[OPTIONS]", "[FILE]"]

/-- What there is to know about the arguments. -/
def helpText : String :=
  "A single-pass expression compiler and interpreter with one character of lookahead\n\n"
    ++ generalUsage
    ++ "\n\nArguments:\n"
    ++ "  [FILE]  Source file. Reads standard input when omitted\n\n"
    ++ "Options:\n"
    ++ "  -c, --compile  Emit 68000 assembly instead of running the program\n"
    ++ "  -h, --help     Print help\n"
    ++ "  -V, --version  Print version\n"

namespace Misuse

/-- An argument as it is quoted. -/
def quoted (argument : String) : String := "'" ++ Text.plain argument ++ "'"

/-- What is wrong. -/
def message : Misuse → String
  | unknownLetter letter => "unexpected argument " ++ quoted ("-" ++ letter.toString) ++ " found"
  | unknownName _ name => "unexpected argument " ++ quoted ("--" ++ name) ++ " found"
  | secondFile path => "unexpected argument " ++ quoted path ++ " found"
  | repeated flag => "the argument " ++ quoted flag.text ++ " cannot be used multiple times"
  | unneededValue _ flag value =>
    "unexpected value " ++ quoted value ++ " for " ++ quoted flag.text
      ++ " found; no more were expected"
  | emptyFile => "a value is required for '[FILE]' but none was supplied"

/-- How an argument is given that is no flag. -/
def valueTip (argument : String) : String :=
  "to pass " ++ quoted argument ++ " as a value, use " ++ quoted ("-- " ++ argument)

/-- How to mend it, where that is known. -/
def tip? : Misuse → Option String
  | unknownLetter letter => some (valueTip ("-" ++ letter.toString))
  | unknownName _ name =>
    match Flag.meant? name.toList with
    | some flag => some ("a similar argument exists: " ++ quoted flag.text)
    | none => some (valueTip ("--" ++ name))
  | secondFile _ | repeated _ | unneededValue _ _ _ | emptyFile => none

/-- How the command is called, where that may help. Where a name is unknown, the options before it
and the flag that was meant are shown. Where a value is not needed, `--compile` and the file are
shown as a choice if the flag was given before. -/
def usage? : Misuse → Option String
  | unknownLetter _ | secondFile _ | repeated _ => some generalUsage
  | unknownName before name =>
    let flags := (before.flags ++ (Flag.meant? name.toList).toList).eraseDups
    match flags, before.file with
    | [], none => some generalUsage
    | _, none => some (usage (flags.map Flag.text ++ ["[FILE]"]))
    | _, some _ => some (usage (flags.map Flag.text ++ ["<FILE>"]))
  | unneededValue before flag _ =>
    if before.compile then
      some (usage (([flag].removeAll before.flags).map Flag.text ++ ["<--compile|FILE>"]))
    else some (usage [flag.text, "[FILE]"])
  | emptyFile => none

/-- The whole text for a mistake: its parts with blank lines between them. -/
def report (mistake : Misuse) : String :=
  "\n\n".intercalate
      (("error: " ++ mistake.message) :: (mistake.tip?.map ("  tip: " ++ ·)).toList
        ++ mistake.usage?.toList ++ ["For more information, try '--help'."])
    ++ "\n"

end Misuse

/-! ## Work on a program -/

/-- Why the text of a program could not be had. -/
inductive InputFailure where
  | unreadable (failure : ReadFailure)
  | invalidText
  deriving DecidableEq, Repr

/-- The words for a failure. -/
def InputFailure.message : InputFailure → String
  | unreadable failure => failure.message
  | invalidText => "stream did not contain valid UTF-8"

/-- The text that bytes stand for. -/
def decode (bytes : ByteArray) : Except InputFailure String :=
  match String.fromUTF8? bytes with
  | some text => .ok text
  | none => .error .invalidText

/-- The fault of a text that could not be had. A file is named with it. -/
def inputFault (file : Option String) (failure : InputFailure) : Fault :=
  match file with
  | some path => .internal (path ++ ": " ++ failure.message)
  | none => .internal failure.message

/-- The outcome of work that ended with a fault, after some output. -/
def aborted (output : String) (fault : Fault) : Outcome where
  exit := 1
  stdout := output
  stderr := "\nError: " ++ fault.message ++ "\nAborting...\n"

/-- The outcome of work on a program: its output, and its fault if it ended with one. -/
def Outcome.ofReport {μ : Type} (report : Report μ) : Outcome :=
  match report.result with
  | .ok _ => { exit := 0, stdout := report.sink.text }
  | .error fault => aborted report.sink.text fault

/-- Runs or compiles the program in a text. -/
def work (options : Options) (text : String) : Outcome :=
  if options.compile then .ofReport (OnePass.compile (.ofText text))
  else .ofReport (OnePass.run (.ofText text))

/-- Works on the bytes that were read, unless reading them failed. -/
def workOn (options : Options) (input : Except ReadFailure ByteArray) : Outcome :=
  match input.mapError .unreadable >>= decode with
  | .ok text => work options text
  | .error failure => aborted "" (inputFault options.file failure)

/-! ## Arguments -/

/-- What takes the arguments of the command: it hands on the options that they ask for, or ends the
command at once, with help or with a mistake. -/
abbrev ArgumentParser := List String → Except Outcome Options

/-- The outcome of a command that ends with its arguments, or else what it is to work with. -/
def Request.settle : Request → Except Outcome Options
  | .help => .error { exit := 0, stdout := helpText }
  | .version => .error { exit := 0, stdout := versionText }
  | .misuse mistake => .error { exit := 2, stderr := mistake.report }
  | .work options => .ok options

/-- The argument parser that knows help, the version and mistakes. -/
def argumentParser : ArgumentParser := fun arguments => (Request.ofArguments arguments).settle

/-- Does what the arguments ask for, as the parser takes them. Standard input is read only where no
file is named. -/
def perform {m : Type → Type} [Monad m] (stdin : m (Except ReadFailure ByteArray))
    (read : String → m (Except ReadFailure ByteArray)) (arguments : List String)
    (parser : ArgumentParser := argumentParser) : m Outcome := do
  match parser arguments with
  | .error outcome => return outcome
  | .ok options =>
    let input ← match options.file with
      | some path => read path
      | none => stdin
    return workOn options input

end OnePass.Command
