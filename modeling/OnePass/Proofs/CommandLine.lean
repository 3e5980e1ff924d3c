import OnePass.Command.Outcome

/-!
# What the command reports

The command works on the program in one file, or on its standard input where no file is named, and
`--compile` may be written once among its arguments (`CommandLine`). Of the parser of the arguments
nothing is assumed but that it takes such arguments as they are meant
(`ArgumentParser.TakesCommandLines`). Then the bytes are read, before anything is done with them,
and if they are a text as a whole, the command tells what came of the program: its output, and in
the exit code and on the standard error whether it has ended well.

* **`takesCommandLines_argumentParser`** — the parser that the command runs with is like that.
* **`perform_eq`** — the command reads its input once, and the rest depends on what was read.
* **`command_reports`** — what the command reports, with any such parser.
-/

namespace OnePass.Command

/-! ## Command lines -/

/-- The ways to write the flag for listings. -/
def compileWords : List String := ["-c", "--compile"]

/-- An argument that is no flag: it is a lone `-` or does not begin with one. -/
def IsFile (argument : String) : Prop := argument = "-" ∨ argument.toList.head? ≠ some '-'

/-- The arguments that ask for work with the options. The flag is written once if it is among the
options, and otherwise never. All arguments that are no flags, and all behind `--`, are files, of
which there is at most one, and it has a name. -/
def CommandLine (options : Options) (arguments : List String) : Prop :=
  ∃ before behind,
    (arguments = before ∧ behind = [] ∨ arguments = before ++ "--" :: behind) ∧
    (∀ word ∈ before, word ∈ compileWords ∨ IsFile word) ∧
    before.countP (· ∈ compileWords) = (if options.compile then 1 else 0) ∧
    before.filter (· ∉ compileWords) ++ behind = options.file.toList ∧
    options.file ≠ some ""

/-- What the command relies on: command lines are taken as they are meant. How mistakes are reported
and what else is taken is left open. -/
def ArgumentParser.TakesCommandLines (parser : ArgumentParser) : Prop :=
  ∀ options arguments, CommandLine options arguments → parser arguments = .ok options

namespace Options

/-- An empty name is the only one that is refused. -/
theorem settleFile_of_ne {options : Options} (h : options.file ≠ some "") :
    options.settleFile = .ok options := if_neg h

/-- Either word of the flag sets it, once. -/
theorem take_compile {options : Options} {word : String} (hword : word ∈ compileWords)
    (hnew : options.compile = false) (hfile : options.file ≠ some "") :
    options.take word = .ok { options with compile := true } := by
  have hflag : options.takeFlag .compile = .ok { options with compile := true } := by
    rw [takeFlag, settleFile_of_ne hfile]
    show (if options.compile then _ else _) = _
    rw [hnew]
    rfl
  simp only [compileWords, List.mem_cons, List.not_mem_nil, or_false] at hword
  -- the short word is a cluster of one letter
  rcases hword with rfl | rfl
  · show (do (← options.takeFlag .compile).takeLetters []) = _
    rw [hflag]
    rfl
  · exact hflag

theorem takeFile_of_none {options : Options} (h : options.file = none) (path : String) :
    options.takeFile path = .ok { options with file := some path } := by
  rw [takeFile, h]
  rfl

/-- An argument that is no flag is the file. -/
theorem take_file {options : Options} {word : String} (hword : IsFile word)
    (hnew : options.file = none) :
    options.take word = .ok { options with file := some word } := by
  have htake : options.take word = options.takeFile word := by
    rcases hword with rfl | hword
    · rfl
    · unfold take
      split
      · next heq => rw [heq] at hword; exact absurd rfl hword
      · next heq => rw [heq] at hword; exact absurd rfl hword
      · rfl
  rw [htake, takeFile_of_none hnew]

/-- The files that are named so far and those still to come are at most one. Thus none is named so
far if one is to come. -/
theorem file_eq_none {soFar options : Options} {word : String} {rest : List String}
    (h : soFar.file.toList ++ word :: rest = options.file.toList) :
    soFar.file = none ∧ rest = [] ∧ options.file = some word := by
  cases hsoFar : soFar.file <;> cases hfile : options.file <;> simp_all

/-- If the file is named so far, it is the file of the options. -/
theorem file_ne {soFar options : Options} {rest : List String}
    (h : soFar.file.toList ++ rest = options.file.toList) (hname : options.file ≠ some "") :
    soFar.file ≠ some "" := by
  cases hsoFar : soFar.file <;> cases hfile : options.file <;> simp_all

/-- Behind `--` every argument is a file, so there is one at most. -/
theorem foldlM_takeFile {soFar options : Options} {behind : List String}
    (hcompile : soFar.compile = options.compile)
    (hfiles : soFar.file.toList ++ behind = options.file.toList) :
    behind.foldlM takeFile soFar = .ok options := by
  cases behind with
  | nil =>
    have hfile : soFar.file = options.file := by
      cases hsoFar : soFar.file <;> cases hfile : options.file <;> simp_all
    cases soFar
    cases options
    simp_all [pure, Except.pure]
  | cons path rest =>
    obtain ⟨hnone, rfl, hsome⟩ := file_eq_none hfiles
    rw [List.foldlM_cons, takeFile_of_none hnone, hcompile, ← hsome]
    rfl

theorem not_separator {word : String} (h : word ∈ compileWords ∨ IsFile word) : word ≠ "--" := by
  rintro rfl
  revert h
  unfold IsFile
  decide

/-- The induction is on the arguments that may be flags. What has been taken and what is still to
come make up the options. -/
theorem takeAll_eq {options : Options} {tail behind before : List String}
    (htail : tail = [] ∧ behind = [] ∨ tail = "--" :: behind) (hname : options.file ≠ some "") :
    ∀ soFar : Options, (∀ word ∈ before, word ∈ compileWords ∨ IsFile word) →
      before.countP (· ∈ compileWords) + soFar.compile.toNat = options.compile.toNat →
      soFar.file.toList ++ (before.filter (· ∉ compileWords) ++ behind) = options.file.toList →
      soFar.takeAll (before ++ tail) = .ok options := by
  induction before with
  | nil =>
    intro soFar _ hcount hfiles
    have hcompile : soFar.compile = options.compile := by
      rw [List.countP_nil, Nat.zero_add] at hcount
      cases hsoFar : soFar.compile <;> cases hoptions : options.compile <;> simp_all
    have hfold : behind.foldlM takeFile soFar = .ok options :=
      foldlM_takeFile hcompile hfiles
    rcases htail with ⟨rfl, rfl⟩ | rfl
    · cases hfold
      exact settleFile_of_ne hname
    · show (if "--" = "--" then _ else _) = _
      rw [if_pos rfl, hfold]
      exact settleFile_of_ne hname
  | cons word before ih =>
    intro soFar hwords hcount hfiles
    have hhead := hwords word List.mem_cons_self
    have hrest := fun other h => hwords other (List.mem_cons_of_mem word h)
    have hstep : soFar.takeAll (word :: before ++ tail)
        = (do (← soFar.take word).takeAll (before ++ tail)) := if_neg (not_separator hhead)
    rw [hstep]
    by_cases hword : word ∈ compileWords
    · rw [List.countP_cons_of_pos (by simpa using hword)] at hcount
      rw [List.filter_cons_of_neg (by simpa using hword)] at hfiles
      -- the flag was not written before, for it is counted once at most
      have hnew : soFar.compile = false := by
        have := options.compile.toNat_le
        cases h : soFar.compile
        · rfl
        · simp only [h, Bool.toNat_true] at hcount
          omega
      rw [take_compile hword hnew (file_ne hfiles hname)]
      refine ih _ hrest ?_ hfiles
      simp only [hnew, Bool.toNat_false, Bool.toNat_true] at hcount ⊢
      omega
    · rw [List.countP_cons_of_neg (by simpa using hword)] at hcount
      rw [List.filter_cons_of_pos (by simpa using hword)] at hfiles
      -- nor was a file named before this one
      have hnone : soFar.file = none := (file_eq_none hfiles).1
      rw [take_file (hhead.resolve_left hword) hnone]
      refine ih _ hrest hcount ?_
      rw [hnone] at hfiles
      exact hfiles

end Options

/-- The parser that takes the arguments one after another takes command lines as they are meant. -/
theorem takesCommandLines_argumentParser : argumentParser.TakesCommandLines := by
  intro options arguments h
  obtain ⟨before, behind, harguments, hwords, hcount, hfiles, hname⟩ := h
  have htail : ∃ tail, arguments = before ++ tail ∧
      (tail = [] ∧ behind = [] ∨ tail = "--" :: behind) := by
    rcases harguments with ⟨rfl, hbehind⟩ | rfl
    · exact ⟨[], (List.append_nil _).symm, .inl ⟨rfl, hbehind⟩⟩
    · exact ⟨_, rfl, .inr rfl⟩
  obtain ⟨tail, rfl, htail⟩ := htail
  have htake : Options.takeAll {} (before ++ tail) = .ok options := by
    refine Options.takeAll_eq htail hname {} hwords ?_ hfiles
    rw [hcount]
    cases options.compile <;> rfl
  rw [argumentParser, Request.ofArguments, htake]
  rfl

/-! ## Bytes that are a text -/

/-- The bytes of a text are decoded to this text. -/
theorem decode_toUTF8 (text : String) : decode text.toUTF8 = .ok text := by
  have h : String.fromUTF8? text.toUTF8 = some text := dif_pos text.isValidUTF8
  rw [decode, h]

theorem isValidUTF8_iff {bytes : ByteArray} :
    bytes.IsValidUTF8 ↔ ∃ text : String, bytes = text.toUTF8 :=
  ⟨fun h => ⟨.fromUTF8 bytes h, rfl⟩, fun ⟨text, h⟩ => h ▸ text.isValidUTF8⟩

/-- Bytes are a text if they are one behind a text. A reader that stops early would not see this. -/
theorem isValidUTF8_append_iff (chars : List Char) {rest : ByteArray} :
    (chars.utf8Encode ++ rest).IsValidUTF8 ↔ rest.IsValidUTF8 := by
  induction chars with
  | nil => rw [List.utf8Encode_nil, ByteArray.empty_append]
  | cons c chars ih =>
    rw [List.utf8Encode_cons, ByteArray.append_assoc,
      ByteArray.isValidUTF8_utf8Encode_singleton_append_iff, ih]

/-- A text with bytes behind it that are none is refused as a whole. -/
theorem decode_of_invalid {before : String} {rest : ByteArray}
    (hrest : ∀ text : String, rest ≠ text.toUTF8) :
    decode (before.toUTF8 ++ rest) = .error .invalidText := by
  have hbefore : before.toUTF8 = before.toList.utf8Encode := by
    rw [← String.toByteArray_ofList, String.ofList_toList]
    rfl
  have hinvalid : ¬ (before.toUTF8 ++ rest).IsValidUTF8 := by
    rw [hbefore, isValidUTF8_append_iff, isValidUTF8_iff]
    exact not_exists.mpr hrest
  have h : String.fromUTF8? (before.toUTF8 ++ rest) = none := dif_neg hinvalid
  rw [decode, h]

/-! ## Outcomes -/

/-- Where the program is: in the file, or on the standard input where no file is named. -/
def Options.input {γ : Type} (options : Options) (stdin : γ) (files : String → γ) : γ :=
  match options.file with
  | some path => files path
  | none => stdin

/-- The outcome of the command with a parser of arguments, given what reading its standard input and
each file comes to. -/
def outcomeOf (parser : ArgumentParser) (stdin : Except ReadFailure ByteArray)
    (files : String → Except ReadFailure ByteArray) (arguments : List String) : Outcome :=
  Id.run (perform (pure stdin) (fun path => pure (files path)) arguments parser)

/-- The outcome tells all that came of the work on a program: the output up to the end, and whether
it has ended well or else why not. -/
structure Outcome.Tells {μ : Type} (outcome : Outcome) (report : Report μ) : Prop where
  stdout : outcome.stdout = report.sink.text
  well : ∀ memory, report.result = .ok memory → outcome.exit = 0 ∧ outcome.stderr = ""
  badly : ∀ fault, report.result = .error fault →
    outcome.exit = 1 ∧ outcome.stderr = "\nError: " ++ fault.message ++ "\nAborting...\n"

theorem Outcome.tells_ofReport {μ : Type} (report : Report μ) :
    (Outcome.ofReport report).Tells report := by
  cases hresult : report.result with
  | ok memory => constructor <;> simp [Outcome.ofReport, hresult]
  | error fault => constructor <;> simp [Outcome.ofReport, hresult, aborted]

section

variable {parser : ArgumentParser}

/-- The command reads its input once. All the rest depends on what was read. -/
theorem perform_eq (hparser : parser.TakesCommandLines) {m : Type → Type} [Monad m] [LawfulMonad m]
    {options : Options} {arguments : List String} (h : CommandLine options arguments)
    (stdin : m (Except ReadFailure ByteArray))
    (read : String → m (Except ReadFailure ByteArray)) :
    perform stdin read arguments parser = workOn options <$> options.input stdin read := by
  rw [perform, hparser options arguments h, Options.input]
  cases hfile : options.file with
  | none =>
    simp only [hfile]
    exact bind_pure_comp (workOn options) stdin
  | some path =>
    simp only [hfile]
    exact bind_pure_comp (workOn options) (read path)

/-- With a parser like that, the outcome is what comes of the bytes that were read. -/
theorem outcomeOf_eq (hparser : parser.TakesCommandLines) {options : Options}
    {arguments : List String} (h : CommandLine options arguments)
    (stdin : Except ReadFailure ByteArray) (files : String → Except ReadFailure ByteArray) :
    outcomeOf parser stdin files arguments = workOn options (options.input stdin files) := by
  rw [outcomeOf, perform_eq hparser h, Options.input, Options.input]
  cases options.file <;> rfl

end

/-- With the bytes of a text, the command works on the text. -/
theorem workOn_toUTF8 (options : Options) (text : String) :
    workOn options (.ok text.toUTF8) = work options text := by
  have hinput : ((.ok text.toUTF8 : Except ReadFailure ByteArray).mapError .unreadable >>= decode)
      = .ok text := decode_toUTF8 text
  rw [workOn, hinput]

/-- With other bytes it aborts before it does anything. -/
theorem workOn_of_invalid (options : Options) {before : String} {rest : ByteArray}
    (hrest : ∀ text : String, rest ≠ text.toUTF8) :
    workOn options (.ok (before.toUTF8 ++ rest))
      = aborted "" (inputFault options.file .invalidText) := by
  have hinput : ((.ok (before.toUTF8 ++ rest) : Except ReadFailure ByteArray).mapError .unreadable
      >>= decode) = .error .invalidText := decode_of_invalid hrest
  rw [workOn, hinput]

/-- The message names the file, if one was named. -/
theorem message_inputFault (file : Option String) :
    (inputFault file .invalidText).message = "Internal error; " ++ ((file.map (· ++ ": ")).getD ""
      ++ "stream did not contain valid UTF-8") := by
  cases file with
  | none => rfl
  | some path =>
    simp [inputFault, Fault.message, Fault.internal, Cause.message, InputFailure.message]

/-- The command is the work on a text, with an exit code, whatever takes its arguments as they are
meant. Whatever bytes are read, from the file or from the standard input, if they are a text, the
output is that of a run or of a listing of it, also when that fails, and the exit code and the
standard error tell the fault. If they are no text, also when they begin with a whole program,
nothing is put out and the exit code is 1. -/
theorem command_reports {parser : ArgumentParser} (hparser : parser.TakesCommandLines)
    {options : Options} {arguments : List String} (h : CommandLine options arguments) :
    -- The input is read once and as a whole, before the rest, which depends on nothing else.
    (∀ {m : Type → Type} [Monad m] [LawfulMonad m] (stdin : m (Except ReadFailure ByteArray))
        (read : String → m (Except ReadFailure ByteArray)),
      perform stdin read arguments parser = workOn options <$> options.input stdin read) ∧
    ∀ (stdin : Except ReadFailure ByteArray) (files : String → Except ReadFailure ByteArray)
      (bytes : ByteArray), options.input stdin files = .ok bytes →
      (∀ text : String, bytes = text.toUTF8 →
        (options.compile = false →
          (outcomeOf parser stdin files arguments).Tells (run (.ofText text))) ∧
        (options.compile = true →
          (outcomeOf parser stdin files arguments).Tells (compile (.ofText text))) ∧
        -- It does not matter where the text is.
        ∀ (others : Options) (otherArguments : List String), CommandLine others otherArguments →
          others.compile = options.compile → ∀ otherStdin otherFiles,
          others.input otherStdin otherFiles = .ok bytes →
          outcomeOf parser otherStdin otherFiles otherArguments =
            outcomeOf parser stdin files arguments) ∧
      -- Nothing is done with a text in front of bytes that are none. It may be empty.
      ∀ (before : String) (rest : ByteArray), bytes = before.toUTF8 ++ rest →
        (∀ text : String, rest ≠ text.toUTF8) →
        outcomeOf parser stdin files arguments =
          { exit := 1, stdout := "",
            stderr := "\nError: Internal error; " ++ ((options.file.map (· ++ ": ")).getD ""
              ++ "stream did not contain valid UTF-8") ++ "\nAborting...\n" } := by
  refine ⟨fun stdin read => perform_eq hparser h stdin read,
    fun stdin files bytes hbytes => ⟨?_, ?_⟩⟩
  · -- what was read is a text, and the report on it is told
    rintro text rfl
    have hwork : outcomeOf parser stdin files arguments = work options text := by
      rw [outcomeOf_eq hparser h, hbytes, workOn_toUTF8]
    refine ⟨fun hrun => ?_, fun hcompile => ?_, ?_⟩
    · rw [hwork, work, hrun]
      exact Outcome.tells_ofReport _
    · rw [hwork, work, hcompile]
      exact Outcome.tells_ofReport _
    · intro others otherArguments hothers hsame otherStdin otherFiles hinput
      rw [outcomeOf_eq hparser hothers, hinput, workOn_toUTF8, hwork, work, work, hsame]
  · -- the text in front may be a good program; it is refused along with the rest
    rintro before rest rfl hrest
    rw [outcomeOf_eq hparser h, hbytes, workOn_of_invalid options hrest]
    rw [aborted, message_inputFault, ← String.append_assoc]
    cases options.file <;> rfl

/-- A listing of a text from either place, and bytes that end badly behind the end of a program,
with the parser that the command runs with. -/
theorem command_reports_listing :
    let stdin : Except ReadFailure ByteArray := .ok "a=1\n;".toUTF8
    let files : String → Except ReadFailure ByteArray := fun _ => stdin
    let behindEnd : Except ReadFailure ByteArray := .ok ("a=1\n!a\n;".toUTF8 ++ ⟨#[0xff]⟩)
    let outcome := outcomeOf argumentParser
    argumentParser.TakesCommandLines ∧
    (outcome stdin files ["--compile"]).Tells (compile (.ofText "a=1\n;")) ∧
    outcome (.error .notFound) files ["p", "-c"] = outcome stdin files ["--compile"] ∧
    (outcome behindEnd files []).stdout = "" := by
  intro stdin files behindEnd outcome
  have hparser := takesCommandLines_argumentParser
  have hstdin : CommandLine { compile := true } ["--compile"] :=
    ⟨["--compile"], [], .inl ⟨rfl, rfl⟩, by simp [compileWords], rfl, rfl, nofun⟩
  have hfile : CommandLine { compile := true, file := some "p" } ["p", "-c"] :=
    ⟨["p", "-c"], [], .inl ⟨rfl, rfl⟩, by simp [compileWords, IsFile], rfl, rfl, by decide⟩
  have hplain : CommandLine {} [] := ⟨[], [], .inl ⟨rfl, rfl⟩, nofun, rfl, rfl, nofun⟩
  have hbad : ∀ text : String, (⟨#[0xff]⟩ : ByteArray) ≠ text.toUTF8 :=
    not_exists.mp (mt isValidUTF8_iff.mpr (by decide +kernel))
  have hvalid := ((command_reports hparser hstdin).2 stdin files _ rfl).1 _ rfl
  refine ⟨hparser, hvalid.2.1 rfl, hvalid.2.2 _ _ hfile rfl _ _ rfl, ?_⟩
  show (outcomeOf argumentParser behindEnd files []).stdout = ""
  rw [((command_reports hparser hplain).2 behindEnd files _ rfl).2 _ _ rfl hbad]

end OnePass.Command
