import OnePass.Text.Similarity

/-!
# Arguments of the command

The arguments are taken from left to right, and the first one that settles the matter does: a
request for help or for the version, or a mistake. Flags may be grouped behind one `-` and may
follow the file. Behind `--` all arguments are files, and a lone `-` always is one.
-/

namespace OnePass.Command

/-- The flags of the command. -/
inductive Flag where
  | compile
  | help
  | version
  deriving DecidableEq, Repr

namespace Flag

/-- The full name of a flag. -/
def name : Flag → String
  | compile => "compile"
  | help => "help"
  | version => "version"

/-- A flag as it is written in full. -/
def text (flag : Flag) : String := "--" ++ flag.name

/-- The flag with a full name. -/
def ofName? (name : List Char) : Option Flag :=
  [compile, help, version].find? fun flag => flag.name.toList = name

/-- The flag with a one-letter name. -/
def ofLetter? : Char → Option Flag
  | 'c' => some compile
  | 'h' => some help
  | 'V' => some version
  | _ => none

/-- How similar a name is to that of a flag. -/
def similarity (name : List Char) (flag : Flag) : Float := Text.similarity name flag.name.toList

/-- The flag that an unknown name was most likely meant for. It is the most similar one, as long as
the names are similar to more than seven tenths. Of two that are equally similar it is the first in
the order of this list. -/
def meant? (name : List Char) : Option Flag :=
  ([version, help, compile].filter fun flag => 0.7 < similarity name flag).maxOn?
    (similarity name)

end Flag

/-- What the command is to work on, and how. -/
structure Options where
  compile : Bool := false
  file : Option String := none
  deriving DecidableEq, Repr

/-- The flags among the options. -/
def Options.flags (options : Options) : List Flag :=
  if options.compile then [.compile] else []

/-- A mistake in the arguments. -/
inductive Misuse where
  /-- A letter that is no flag. -/
  | unknownLetter (letter : Char)
  /-- A name that is no flag, behind some options. -/
  | unknownName (before : Options) (name : String)
  /-- A file behind another one. -/
  | secondFile (path : String)
  | repeated (flag : Flag)
  /-- A flag with a value, behind some options. -/
  | unneededValue (before : Options) (flag : Flag) (value : String)
  | emptyFile
  deriving DecidableEq, Repr

/-- What the arguments ask for. -/
inductive Request where
  | help
  | version
  | misuse (mistake : Misuse)
  | work (options : Options)
  deriving DecidableEq, Repr

namespace Options

/-- Settles on the file, which must have a name by then. A mistake that is found before comes
first. -/
def settleFile (options : Options) : Except Request Options :=
  if options.file = some "" then .error (.misuse .emptyFile) else .ok options

/-- Takes a flag. -/
def takeFlag (options : Options) (flag : Flag) : Except Request Options := do
  let options ← options.settleFile
  match flag with
  | .help => .error .help
  | .version => .error .version
  | .compile =>
    if options.compile then .error (.misuse (.repeated .compile))
    else .ok { options with compile := true }

/-- Takes the name of the file. -/
def takeFile (options : Options) (path : String) : Except Request Options :=
  if options.file.isSome then .error (.misuse (.secondFile path))
  else .ok { options with file := some path }

/-- Takes the letters of a group of flags. -/
def takeLetters (options : Options) : List Char → Except Request Options
  | [] => .ok options
  | c :: letters =>
    match Flag.ofLetter? c with
    | some flag => do (← options.takeFlag flag).takeLetters letters
    | none => .error (.misuse (.unknownLetter c))

/-- Takes what stands behind `--`: the name of a flag, which has no value. -/
def takeName (options : Options) (text : List Char) : Except Request Options :=
  let name := text.takeWhile (· ≠ '=')
  match Flag.ofName? name, text.dropWhile (· ≠ '=') with
  | none, _ => .error (.misuse (.unknownName options (String.ofList name)))
  | some flag, [] => options.takeFlag flag
  | some flag, _ :: value => .error (.misuse (.unneededValue options flag (String.ofList value)))

/-- Takes an argument that stands before any `--`. -/
def take (options : Options) (argument : String) : Except Request Options :=
  match argument.toList with
  | '-' :: '-' :: text => options.takeName text
  | '-' :: c :: letters => options.takeLetters (c :: letters)
  | _ => options.takeFile argument

/-- Takes all arguments. -/
def takeAll (options : Options) : List String → Except Request Options
  | [] => options.settleFile
  | argument :: arguments =>
    if argument = "--" then do (← arguments.foldlM takeFile options).settleFile
    else do (← options.take argument).takeAll arguments

end Options

/-- What the arguments ask for. -/
def Request.ofArguments (arguments : List String) : Request :=
  match Options.takeAll {} arguments with
  | .ok options => .work options
  | .error request => request

end OnePass.Command
