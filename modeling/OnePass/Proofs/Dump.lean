import OnePass.Proofs.Decompilation
import OnePass.Proofs.Vocabulary

/-!
# Dumps of variables

A *dump* of variables is a program: lines that give the variables their values, and lines that show
them. It reads back: it ends with the variables it was made of and shows their values
(`dump_reads_back`). There is one exception. A negative number is zero minus its magnitude, and the
magnitude of the least word is no word, so a dump with this value overflows and shows nothing.

The lines spell statements (`Statements.spelled_lines`). What each of these does to the state of a
run is known exactly (`Evaluation.drive_giving`, `Evaluation.drive_showing`), and from that what all
of them do, one after another.
-/

namespace OnePass

/-! ## The text of a dump -/

/-- The line that gives a variable its value: an input, or an assignment. -/
def givingLine (byInput : Bool) (entry : String × Word) : String :=
  if byInput then "?" ++ entry.1 ++ " " ++ entry.2.text else entry.1 ++ "=" ++ entry.2.text

/-- The line that shows a variable. -/
def showingLine (entry : String × Word) : String := "!" ++ entry.1

/-- Lines that give variables their values and lines that show variables, all with the same end, and
the `;` that ends a program. -/
def dump (lineEnd : String) (byInput : String → Bool) (given asked : List (String × Word)) :
    String :=
  String.join ((given.map fun entry => givingLine (byInput entry.1) entry ++ lineEnd) ++
    asked.map fun entry => showingLine entry ++ lineEnd) ++ ";"

/-! ## The statements of a dump -/

/-- A number with its sign. -/
def Expr.ofInt (n : Int) : Expr :=
  if 0 ≤ n then .number (toString n) else .binary .sub .zero (.number (toString (-n)))

def Stmt.giving (byInput : Bool) (entry : String × Word) : Stmt :=
  if byInput then .input entry.1 entry.2.text else .assign entry.1 (.ofInt entry.2.toInt)

def Stmt.showing (entry : String × Word) : Stmt := .print entry.1

/-- A number that is not negative is written with digits alone. -/
theorem digits_toString {n : Int} (h : 0 ≤ n) : Digits (toString n).toList := by
  rw [Int.toString_eq_repr, Int.repr_eq_if, if_pos h, Nat.toList_repr]
  exact Word.digits_toDigits n.toNat

/-- A negative number is written with its sign and its magnitude. -/
theorem toString_of_neg {n : Int} (h : n < 0) : toString n = "-" ++ toString (-n) := by
  have hneg : 0 ≤ -n := by omega
  have hnot : ¬ 0 ≤ n := by omega
  rw [Int.toString_eq_repr, Int.toString_eq_repr, Int.repr_eq_if, Int.repr_eq_if, if_neg hnot,
    if_pos hneg]

theorem Expr.spelled_number {calls : Bool} {digits : String} (h : Digits digits.toList) :
    Expr.Spelled calls .term (.number digits) digits.toList := by
  have hfactor : Expr.Spelled calls .factor (.number (String.ofList digits.toList))
      (digits.toList ++ []) := .number h blanks_nil
  rw [String.ofList_toList, List.append_nil] at hfactor
  exact .term hfactor

/-- A number is spelled as it is shown. -/
theorem Expr.spelled_ofInt (calls : Bool) (n : Int) :
    Expr.Spelled calls .expression (.ofInt n) (toString n).toList := by
  unfold Expr.ofInt
  split
  · next hn => exact .expression (spelled_number (digits_toString hn))
  · next hn =>
    have hneg : n < 0 := by omega
    have hmagnitude : 0 ≤ -n := by omega
    have hsub : Operator.sub.isAdditive = true := rfl
    rw [toString_of_neg hneg, String.toList_append]
    exact .signed hsub (spelled_number (digits_toString hmagnitude)) blanks_nil

theorem exists_letter {name : String} (h : name ∈ capitals) :
    ∃ c : Char, c.isAlpha = true ∧ nameOf c = name ∧ name.toList = [c] := by
  obtain ⟨c, hc, rfl⟩ := List.mem_map.1 h
  have hletters : ∀ c ∈ "ABCDEFGHIJKLMNOPQRSTUVWXYZ".toList,
      c.isAlpha = true ∧ c.toUpper = c := by simp
  obtain ⟨halpha, hupper⟩ := hletters c hc
  refine ⟨c, halpha, ?_, String.toList_singleton c⟩
  rw [nameOf, hupper]

/-- The line that gives a value spells its statement. -/
theorem Stmt.spelled_giving {byInput : Bool} {entry : String × Word} (hname : entry.1 ∈ capitals)
    (hinput : byInput = true → 0 ≤ entry.2.toInt) :
    Stmt.Spelled false (.giving byInput entry) (givingLine byInput entry).toList := by
  obtain ⟨c, hc, hnameOf, htoList⟩ := exists_letter hname
  cases byInput with
  | true =>
    have hdigits : Digits entry.2.text.toList := digits_toString (hinput rfl)
    have hspace : Blanks [' '] := by decide
    have hspelled : Stmt.Spelled false _ _ := .input hc hdigits blanks_nil hspace blanks_nil
    rw [hnameOf, String.ofList_toList] at hspelled
    simpa [giving, givingLine, htoList] using hspelled
  | false =>
    have hspelled : Stmt.Spelled false _ _ :=
      .assign hc blanks_nil blanks_nil (Expr.spelled_ofInt false entry.2.toInt)
    rw [hnameOf] at hspelled
    simpa [giving, givingLine, htoList, Word.text] using hspelled

/-- The line that shows a variable spells its statement. -/
theorem Stmt.spelled_showing {entry : String × Word} (hname : entry.1 ∈ capitals) :
    Stmt.Spelled false (.showing entry) (showingLine entry).toList := by
  obtain ⟨c, hc, hnameOf, htoList⟩ := exists_letter hname
  have hspelled : Stmt.Spelled false _ _ := .print hc blanks_nil blanks_nil
  rw [hnameOf] at hspelled
  simpa [showing, showingLine, htoList] using hspelled

/-- Lines that spell statements spell all of them, if their ends are line ends. -/
theorem Statements.spelled_lines {calls : Bool} {program : List (Stmt × String)}
    (hne : program ≠ []) (h : ∀ line ∈ program, Stmt.Spelled calls line.1 line.2.toList)
    {lineEnd : String} (hend : LineEnd lineEnd.toList) :
    Statements.Spelled calls (program.map Prod.fst)
      (String.join (program.map fun line => line.2 ++ lineEnd)).toList := by
  induction program with
  | nil => exact absurd rfl hne
  | cons first rest ih =>
    obtain ⟨hfirst, hrest⟩ := List.forall_mem_cons.1 h
    have htext : (String.join ((first :: rest).map fun line => line.2 ++ lineEnd)).toList =
        first.2.toList ++ (lineEnd.toList ++
          (String.join (rest.map fun line => line.2 ++ lineEnd)).toList) := by
      simp [String.toList_append]
    rw [htext]
    -- the last statement is spelled by a rule of its own
    cases rest with
    | nil =>
      have hlast : Statements.Spelled calls [first.1] (first.2.toList ++ lineEnd.toList) :=
        .last hfirst hend
      simpa using hlast
    | cons second rest => exact .cons hfirst hend (ih (List.cons_ne_nil _ _) hrest)

/-- The three ways in which a line may end. -/
theorem lineEnd_of_mem {lineEnd : String} (h : lineEnd ∈ ["\r", "\n", "\r\n"]) :
    LineEnd lineEnd.toList := by
  simp only [List.mem_cons, List.not_mem_nil, or_false] at h
  rcases h with rfl | rfl | rfl
  · exact .cr blanks_nil
  · exact .lf blanks_nil
  · exact .crlf blanks_nil

section

variable {byInput : String → Bool} {given asked : List (String × Word)}

/-- The lines of a dump, each behind the statement that it spells. -/
def dumpLines (byInput : String → Bool) (given asked : List (String × Word)) :
    List (Stmt × String) :=
  given.map (fun entry => (.giving (byInput entry.1) entry, givingLine (byInput entry.1) entry))
    ++ asked.map fun entry => (.showing entry, showingLine entry)

theorem dumpLines_ne_nil (hne : given ≠ []) : dumpLines byInput given asked ≠ [] := by
  intro hnil
  exact hne (List.map_eq_nil_iff.1 (List.append_eq_nil_iff.1 hnil).1)

/-- Every line of a dump spells its statement. -/
theorem spelled_of_mem_dumpLines (hgiven : ∀ entry ∈ given, entry.1 ∈ capitals)
    (hasked : ∀ entry ∈ asked, entry.1 ∈ capitals)
    (hinput : ∀ entry ∈ given, byInput entry.1 = true → 0 ≤ entry.2.toInt) :
    ∀ line ∈ dumpLines byInput given asked, Stmt.Spelled false line.1 line.2.toList := by
  intro line hline
  rcases List.mem_append.1 hline with hline | hline
  · obtain ⟨entry, hentry, rfl⟩ := List.mem_map.1 hline
    exact Stmt.spelled_giving (hgiven entry hentry) (hinput entry hentry)
  · obtain ⟨entry, hentry, rfl⟩ := List.mem_map.1 hline
    exact Stmt.spelled_showing (hasked entry hentry)

/-- The statements of the lines are those that give, then those that show. -/
theorem map_fst_dumpLines :
    (dumpLines byInput given asked).map Prod.fst =
      given.map (fun entry => .giving (byInput entry.1) entry) ++ asked.map .showing := by
  simp [dumpLines, Function.comp_def]

theorem dump_eq (lineEnd : String) :
    dump lineEnd byInput given asked =
      String.join ((dumpLines byInput given asked).map fun line => line.2 ++ lineEnd) ++ ";" := by
  simp [dump, dumpLines, Function.comp_def]

/-- A dump spells the statements that give variables their values and those that show them. -/
theorem spelled_dump (hgiven : ∀ entry ∈ given, entry.1 ∈ capitals)
    (hasked : ∀ entry ∈ asked, entry.1 ∈ capitals) (hne : given ≠ [])
    (hinput : ∀ entry ∈ given, byInput entry.1 = true → 0 ≤ entry.2.toInt) {lineEnd : String}
    (hend : LineEnd lineEnd.toList) :
    ∃ p, Program.Spelled false
        (given.map (fun entry => .giving (byInput entry.1) entry) ++ asked.map .showing) p ∧
      (dump lineEnd byInput given asked).toList = p ++ ';' :: [] := by
  have hspelled := Statements.spelled_lines (dumpLines_ne_nil hne)
    (spelled_of_mem_dumpLines hgiven hasked hinput) hend
  rw [map_fst_dumpLines] at hspelled
  refine ⟨_, ⟨[], _, blanks_nil, hspelled, (List.nil_append _).symm⟩, ?_⟩
  rw [dump_eq, String.toList_append]
  rfl

end

/-! ## What the statements do -/

namespace Evaluation

/-- A number with a sign in front is zero minus its magnitude. -/
theorem drive_minus (digits : String) (s : Writing Store) :
    (Expr.binary .sub .zero (.number digits)).drive semantics s =
      (Action.ofExcept (Word.ofText digits) >>= fun w =>
        Action.ofExcept (Word.ofInt (0 - w.toInt))) s := rfl

/-- The value of a number in a dump is the word, but the least word is out of reach. -/
theorem drive_ofInt (w : Word) (s : Writing Store) :
    (Expr.ofInt w.toInt).drive semantics s =
      if w.toInt = -2147483648 then .error .overflow s else .ok w s := by
  obtain ⟨hlo, hhi⟩ := w.inRange
  -- a number without a sign is a literal, and a literal that is in range
  by_cases hw : 0 ≤ w.toInt
  · have hnot : w.toInt ≠ -2147483648 := by omega
    rw [Expr.ofInt, if_pos hw, if_neg hnot]
    show Action.ofExcept (Word.ofText (toString w.toInt)) s = _
    rw [Word.ofText_toString, Word.ofInt_toInt]
    rfl
  · rw [Expr.ofInt, if_neg hw, drive_minus, Word.ofText_toString]
    -- all magnitudes are in range but that of the least word
    by_cases hmin : w.toInt = -2147483648
    · have hlarge : ¬ InRange (-w.toInt) := by
        unfold InRange
        omega
      rw [Word.ofInt_of_not_inRange hlarge, if_pos hmin]
      rfl
    · have hrange : InRange (-w.toInt) := by
        unfold InRange
        omega
      have hminus : 0 - (Int32.ofInt (-w.toInt)).toInt = w.toInt := by
        rw [Word.toInt_ofInt hrange]
        omega
      rw [Word.ofInt_of_inRange hrange, if_neg hmin]
      show Action.ofExcept (Word.ofInt (0 - (Int32.ofInt (-w.toInt)).toInt)) s = _
      rw [hminus, Word.ofInt_toInt]
      rfl

/-- A line that gives a value sets the variable, except to the least word. -/
theorem drive_giving {byInput : Bool} {entry : String × Word}
    (hinput : byInput = true → 0 ≤ entry.2.toInt) (s : Writing Store) :
    (Stmt.giving byInput entry).drive semantics s =
      if entry.2.toInt = -2147483648 then .error .overflow s
      else .ok () { s with memory := s.memory.set entry.1 entry.2 } := by
  cases byInput with
  | true =>
    have hnot : entry.2.toInt ≠ -2147483648 := by
      have hsign := hinput rfl
      omega
    rw [if_neg hnot]
    show (Action.ofExcept (Word.ofText (toString entry.2.toInt)) >>= semantics.assign entry.1) s = _
    rw [Word.ofText_toString, Word.ofInt_toInt]
    rfl
  -- an assignment goes through the expression, where the least word overflows
  | false =>
    show ((Expr.ofInt entry.2.toInt).drive semantics >>= semantics.assign entry.1) s = _
    have hvalue := drive_ofInt entry.2 s
    by_cases hmin : entry.2.toInt = -2147483648
    · rw [if_pos hmin] at hvalue
      rw [if_pos hmin]
      exact Grammar.action_bind_of_error hvalue
    · rw [if_neg hmin] at hvalue
      rw [if_neg hmin]
      exact Grammar.action_bind_of_ok hvalue

/-- A line that shows a variable writes its value. -/
theorem drive_showing (entry : String × Word) {s : Writing Store} (hs : s.sink.Unlimited) :
    (Stmt.showing entry).drive semantics s =
      .ok () { s with sink := s.sink.append ((s.memory.get entry.1).text ++ "\n") } :=
  Writing.write_eq_ok hs _

variable {byInput : String → Bool} {given : List (String × Word)}

/-- The variables have their values when the lines that give them have been read. -/
theorem driveAll_giving
    (hinput : ∀ entry ∈ given, byInput entry.1 = true → 0 ≤ entry.2.toInt)
    (hvalues : ∀ entry ∈ given, entry.2.toInt ≠ -2147483648) (rest : List Stmt)
    (s : Writing Store) :
    driveAll semantics (given.map (fun entry => .giving (byInput entry.1) entry) ++ rest) s =
      driveAll semantics rest { s with memory := s.memory.setAll given } := by
  induction given generalizing s with
  | nil => rfl
  | cons first given ih =>
    obtain ⟨hsign, hinput⟩ := List.forall_mem_cons.1 hinput
    obtain ⟨hfirst, hvalues⟩ := List.forall_mem_cons.1 hvalues
    have hgives := drive_giving hsign s
    rw [if_neg hfirst] at hgives
    rw [List.map_cons, List.cons_append, driveAll, Grammar.action_bind_of_ok hgives]
    exact ih hinput hvalues _

/-- The least word is not given to a variable, and nothing is shown before it would be. -/
theorem driveAll_giving_least
    (hinput : ∀ entry ∈ given, byInput entry.1 = true → 0 ≤ entry.2.toInt)
    (hleast : ∃ entry ∈ given, entry.2.toInt = -2147483648) (rest : List Stmt)
    (s : Writing Store) :
    ∃ s', driveAll semantics (given.map (fun entry => .giving (byInput entry.1) entry) ++ rest) s =
      .error .overflow s' ∧ s'.sink = s.sink := by
  induction given generalizing s with
  | nil =>
    obtain ⟨entry, hentry, -⟩ := hleast
    cases hentry
  | cons first given ih =>
    obtain ⟨hsign, hinput⟩ := List.forall_mem_cons.1 hinput
    have hgives := drive_giving hsign s
    rw [List.map_cons, List.cons_append, driveAll]
    by_cases hfirst : first.2.toInt = -2147483648
    · rw [if_pos hfirst] at hgives
      exact ⟨s, Grammar.action_bind_of_error hgives, rfl⟩
    · rw [if_neg hfirst] at hgives
      rw [Grammar.action_bind_of_ok hgives]
      -- so it is one of the others
      obtain ⟨entry, hentry, hvalue⟩ := hleast
      rcases List.mem_cons.1 hentry with rfl | hentry
      · exact absurd hvalue hfirst
      · exact ih hinput ⟨entry, hentry, hvalue⟩ _

/-- Each line that shows a variable writes a line with its value. -/
theorem driveAll_showing (asked : List (String × Word)) (memory : Store) {sink : Sink}
    (hsink : sink.Unlimited) :
    ∃ sink' : Sink,
      driveAll semantics (asked.map .showing) ⟨memory, sink⟩ = .ok () ⟨memory, sink'⟩ ∧
      sink'.text = sink.text ++
        String.join (asked.map fun entry => (memory.get entry.1).text ++ "\n") := by
  induction asked generalizing sink with
  | nil => exact ⟨sink, rfl, String.append_empty.symm⟩
  | cons first asked ih =>
    obtain ⟨sink', hrest, htext⟩ := ih (hsink.append ((memory.get first.1).text ++ "\n"))
    refine ⟨sink', ?_, ?_⟩
    · rw [List.map_cons, driveAll, Grammar.action_bind_of_ok (drive_showing first hsink)]
      exact hrest
    · rw [htext, Sink.text_append]
      simp [String.append_assoc]

end Evaluation

/-! ## Reading a dump back -/

/-- The entries of a store make the store again, in whatever order they are set. -/
theorem Store.Lettered.setAll_eq {store : Store} (h : store.Lettered)
    {given : List (String × Word)} (hgiven : given.Perm store.entries) :
    setAll {} given = store := by
  have hnodup : (given.map Prod.fst).Nodup := (hgiven.map Prod.fst).nodup_iff.2 h.ordered.nodup
  have hnonzero (entry) (hentry : entry ∈ given) : entry.2 ≠ 0 :=
    h.ne_zero entry (hgiven.subset hentry)
  -- both are in order, so it is enough that they have the same entries
  apply (ordered_empty.setAll given).ext h.ordered
  intro entry
  rw [mem_setAll hnodup hnonzero, hgiven.mem_iff]
  simp

/-- A dump of variables, as any run may leave them, ends with these variables and shows their
values, in the order in which they are asked for. If the least word is among the values, it
overflows and shows nothing. The variables may be given in any order, those that are not negative
also by inputs, and lines may end in any of the three ways. -/
theorem dump_reads_back {store : Store} (hstore : store.Lettered) (hne : store.entries ≠ [])
    {given asked : List (String × Word)} (hgiven : given.Perm store.entries)
    (hasked : asked.Perm store.entries) {byInput : String → Bool}
    (hinput : ∀ entry ∈ given, byInput entry.1 = true → 0 ≤ entry.2.toInt) {lineEnd : String}
    (hend : lineEnd ∈ ["\r", "\n", "\r\n"]) :
    let report := run (.ofText (dump lineEnd byInput given asked))
    ((∀ entry ∈ given, entry.2.toInt ≠ -2147483648) →
      report.result = .ok store ∧
        report.sink.text = String.join (asked.map fun entry => toString entry.2.toInt ++ "\n")) ∧
    ((∃ entry ∈ given, entry.2.toInt = -2147483648) →
      report.result = .error .overflow ∧ report.sink.text = "") := by
  intro report
  have hgivenNames (entry) (hentry : entry ∈ given) : entry.1 ∈ capitals :=
    hstore.name entry (hgiven.subset hentry)
  have haskedNames (entry) (hentry : entry ∈ asked) : entry.1 ∈ capitals :=
    hstore.name entry (hasked.subset hentry)
  have hgivenNe : given ≠ [] := by
    rintro rfl
    exact hne hgiven.symm.eq_nil
  obtain ⟨p, hp, hsrc⟩ :=
    spelled_dump hgivenNames haskedNames hgivenNe hinput (lineEnd_of_mem hend)
  -- the run shows what the tree of the dump does
  have hshown : report.shown = shown _ := (run_shown hp hsrc).1
  refine ⟨fun hvalues => ?_, fun hleast => ?_⟩
  · obtain ⟨sink, hshowing, htext⟩ :=
      Evaluation.driveAll_showing asked store Sink.unlimited_empty
    have hdrive := Evaluation.driveAll_giving hinput hvalues (asked.map .showing) ⟨{}, {}⟩
    rw [show Store.setAll _ given = store from hstore.setAll_eq hgiven, hshowing] at hdrive
    rw [shown, hdrive] at hshown
    refine ⟨congrArg Prod.fst hshown, (congrArg Prod.snd hshown).trans ?_⟩
    show sink.text = _
    rw [htext, Sink.text_start, String.empty_append]
    congr 1
    apply List.map_congr_left
    intro entry hentry
    -- each variable is shown with the value of its entry
    rw [hstore.ordered.get_eq (hasked.subset hentry)]
    rfl
  · -- the overflow comes before any line that shows something
    obtain ⟨s, hdrive, hsink⟩ :=
      Evaluation.driveAll_giving_least hinput hleast (asked.map .showing) ⟨{}, {}⟩
    rw [shown, hdrive] at hshown
    refine ⟨congrArg Prod.fst hshown, (congrArg Prod.snd hshown).trans ?_⟩
    show s.sink.text = ""
    rw [hsink]
    rfl

/-- The greatest word reads back, and the least but one. -/
theorem dump_reads_back_bounds :
    let store : Store := ⟨[("A", -2147483647), ("Z", 2147483647)]⟩
    let report := run (.ofText "?Z 2147483647\r\nA=-2147483647\r\n!A\r\n!Z\r\n;")
    store.Lettered ∧
    dump "\r\n" (· == "Z") store.entries.reverse store.entries =
      "?Z 2147483647\r\nA=-2147483647\r\n!A\r\n!Z\r\n;" ∧
    report.result = .ok store ∧ report.sink.text = "-2147483647\n2147483647\n" := by
  intro store report
  have hordered : store.Ordered := by
    show List.Pairwise (fun a b => a.1 < b.1) [("A", (-2147483647 : Word)), ("Z", 2147483647)]
    decide
  have hstore : store.Lettered := ⟨hordered, by decide, by decide⟩
  have hne : store.entries ≠ [] := by decide
  have hend : "\r\n" ∈ ["\r", "\n", "\r\n"] := by decide
  have hinput : ∀ entry ∈ store.entries.reverse, (entry.1 == "Z") = true → 0 ≤ entry.2.toInt := by
    decide
  have hvalues : ∀ entry ∈ store.entries.reverse, entry.2.toInt ≠ -2147483648 := by decide
  have hdump : dump "\r\n" (· == "Z") store.entries.reverse store.entries =
      "?Z 2147483647\r\nA=-2147483647\r\n!A\r\n!Z\r\n;" := by cbv
  obtain ⟨hreads, -⟩ := @dump_reads_back store hstore hne _ _ (List.reverse_perm _)
    (List.Perm.refl _) (· == "Z") hinput _ hend
  rw [hdump] at hreads
  obtain ⟨hresult, htext⟩ := hreads hvalues
  refine ⟨hstore, hdump, hresult, htext.trans ?_⟩
  cbv

/-- The least word does not. -/
example : (run (.ofText "A=7\nB=-2147483648\n!A\n!B\n;")).result = .error .overflow := by cbv

end OnePass
