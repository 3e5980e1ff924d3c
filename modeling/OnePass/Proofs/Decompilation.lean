import OnePass.Proofs.Compilation

/-!
# What a listing tells of its program

A listing is read back from its end. The last instruction of an expression's code says which
construct is outermost (`Expr.last`), the code of its right operand ends before it, and that of the
left one before the push, so the code determines the tree whatever stands in front of it
(`Expr.code_append_inj`). Statements follow one another in the same way, except that an input has
the code of an assignment, which it also is to every semantics (`Stmt.desugar`).

A program without subroutine calls, which is known by the branches in its listing
(`BranchesElsewhere`), runs like its tree. So texts with the same listing run alike
(`run_eq_of_listing_eq`).
-/

namespace OnePass

/-! ## Expressions -/

/-- The last instruction of an operator. -/
def Operator.last : Operator → Instruction
  | .add => .add
  | .sub => .neg
  | .mul => .mul
  | .div => .div

theorem Operator.last_injective : Function.Injective Operator.last := by
  intro op op' h
  cases op <;> cases op' <;> first | rfl | cases h

theorem Operator.code_eq_concat (op : Operator) :
    Listing.code (.combine op () ()) =
      (Listing.code (.combine op () ())).dropLast ++ [op.last] := by
  cases op <;> rfl

namespace Expr

/-- The last instruction of an expression's code. -/
def last : Expr → Instruction
  | zero => .clear
  | number digits => .constant digits
  | var name => .load name
  | call name => .branch name
  | binary op _ _ => op.last

/-- The code of a binary expression with any code in front, cut where its operands end. -/
theorem append_code_binary (xs : List Instruction) (op : Operator) (l r : Expr) :
    xs ++ (binary op l r).code =
      xs ++ l.code ++ [.push] ++ r.code ++ Listing.code (.combine op () ()) := by
  simp [code]

/-- The last instruction is the same with any code in front. -/
theorem getLast?_append_code (xs : List Instruction) (e : Expr) :
    (xs ++ e.code).getLast? = some e.last := by
  cases e with
  | binary op l r =>
    rw [append_code_binary, op.code_eq_concat, ← List.append_assoc]
    exact List.getLast?_concat
  | _ => exact List.getLast?_concat

/-- Codes that are the same end with the same instruction. -/
theorem last_eq {xs ys : List Instruction} {e e' : Expr} (h : xs ++ e.code = ys ++ e'.code) :
    e.last = e'.last := by
  have hlast := congrArg List.getLast? h
  rw [getLast?_append_code, getLast?_append_code] at hlast
  exact Option.some.inj hlast

/-- The code of an expression determines it, whatever stands in front. -/
theorem code_append_inj {e e' : Expr} {xs ys : List Instruction}
    (h : xs ++ e.code = ys ++ e'.code) : e = e' ∧ xs = ys := by
  have hlast := last_eq h
  induction e generalizing e' xs ys with
  | binary op l r ihl ihr =>
    cases e' with
    | binary op' l' r' =>
      -- the same last instruction means the same operator, so the operation is cut off on both
      -- sides
      obtain rfl : op = op' := Operator.last_injective hlast
      rw [append_code_binary, append_code_binary] at h
      -- the right operand ends where the operator begins, and the left one before the push
      have hright := List.append_cancel_right h
      obtain ⟨rfl, hleft⟩ := ihr hright (last_eq hright)
      have hleft := List.append_cancel_right hleft
      obtain ⟨rfl, rfl⟩ := ihl hleft (last_eq hleft)
      exact ⟨rfl, rfl⟩
    | _ => cases op <;> cases hlast
  | _ =>
    cases e' with
    | binary op' l' r' => cases op' <;> cases hlast
    | _ => cases hlast <;> exact ⟨rfl, List.append_cancel_right h⟩

end Expr

/-! ## Statements -/

namespace Stmt

/-- An input is the assignment of a literal. -/
def desugar : Stmt → Stmt
  | print name => .print name
  | input name digits => .assign name (.number digits)
  | assign name e => .assign name e

theorem code_desugar (s : Stmt) : s.desugar.code = s.code := by
  cases s <;> rfl

theorem drive_desugar {σ α : Type} (m : Semantics σ α) (s : Stmt) :
    s.desugar.drive m = s.drive m := by
  cases s <;> rfl

/-- Without inputs there are two kinds of statements. -/
theorem desugar_cases (s : Stmt) :
    (∃ name, s.desugar = .print name) ∨ ∃ name e, s.desugar = .assign name e := by
  cases s with
  | print name => exact .inl ⟨name, rfl⟩
  | input name digits => exact .inr ⟨name, .number digits, rfl⟩
  | assign name e => exact .inr ⟨name, e, rfl⟩

/-- The code of an assignment ends with its two instructions for the store. -/
theorem append_code_assign (xs : List Instruction) (name : String) (e : Expr) :
    xs ++ (assign name e).code = xs ++ e.code ++ [.address name, .store] := by
  rw [code, List.append_assoc]

/-- The code of a statement determines it but for its sugar, whatever stands in front. -/
theorem code_append_inj {s s' : Stmt} {xs ys : List Instruction}
    (h : xs ++ s.code = ys ++ s'.code) : s.desugar = s'.desugar ∧ xs = ys := by
  rw [← s.code_desugar, ← s'.code_desugar] at h
  -- without inputs the last instruction tells a print from an assignment
  rcases s.desugar_cases with ⟨name, hs⟩ | ⟨name, e, hs⟩ <;>
  rcases s'.desugar_cases with ⟨name', hs'⟩ | ⟨name', e', hs'⟩ <;>
  rw [hs, hs'] at h ⊢
  · obtain ⟨rfl, hcode⟩ := List.append_inj' h rfl
    cases hcode
    exact ⟨rfl, rfl⟩
  · rw [append_code_assign] at h
    cases (List.append_inj' h rfl).2
  · rw [append_code_assign] at h
    cases (List.append_inj' h rfl).2
  · rw [append_code_assign, append_code_assign] at h
    obtain ⟨hvalue, hcode⟩ := List.append_inj' h rfl
    cases hcode
    obtain ⟨rfl, rfl⟩ := Expr.code_append_inj hvalue
    exact ⟨rfl, rfl⟩

/-- No statement is without code. -/
theorem code_ne_nil (s : Stmt) : s.code ≠ [] := by
  cases s with
  | print name => exact List.cons_ne_nil _ _
  | input name digits => exact List.cons_ne_nil _ _
  | assign name e => exact List.append_ne_nil_of_right_ne_nil _ (List.cons_ne_nil _ _)

theorem flatMap_code_eq_nil {ss : List Stmt} (h : ss.flatMap code = []) : ss = [] := by
  rw [List.flatMap_eq_nil_iff] at h
  exact List.eq_nil_iff_forall_not_mem.2 fun s hs => s.code_ne_nil (h s hs)

/-- The code of statements determines them but for their sugar. -/
theorem flatMap_code_inj {ss ss' : List Stmt} (h : ss.flatMap code = ss'.flatMap code) :
    ss.map desugar = ss'.map desugar := by
  induction ss using List.reverseRecOn generalizing ss' with
  | nil => rw [flatMap_code_eq_nil h.symm]
  | append_singleton ss s ih =>
    rcases ss'.eq_nil_or_concat' with rfl | ⟨ss', s', rfl⟩
    · rw [flatMap_code_eq_nil h]
    · rw [List.flatMap_append, List.flatMap_append, List.flatMap_singleton,
        List.flatMap_singleton] at h
      obtain ⟨hs, hss⟩ := code_append_inj h
      rw [List.map_append, List.map_append, ih hss, List.map_singleton, List.map_singleton, hs]

end Stmt

/-- Statements take the same steps with their inputs written as assignments. -/
theorem driveAll_desugar {σ α : Type} (m : Semantics σ α) (ss : List Stmt) :
    driveAll m (ss.map Stmt.desugar) = driveAll m ss := by
  induction ss with
  | nil => rfl
  | cons s ss ih => rw [List.map_cons, driveAll, driveAll, s.drive_desugar, ih]

/-! ## Branches

The only subroutine of a program without calls is `WRITE`, which its outputs call. -/

/-- A line of the text branches to a subroutine other than `WRITE`. -/
def BranchesElsewhere (text : String) : Prop :=
  ∃ line ∈ text.toList.splitOn '\n', "\tBSR ".toList <+: line ∧ line ≠ "\tBSR WRITE".toList

instance (text : String) : Decidable (BranchesElsewhere text) :=
  inferInstanceAs (Decidable (∃ line ∈ text.toList.splitOn '\n', _))

/-- The instructions branch to no subroutine but `WRITE`. -/
def CallsNothing (code : List Instruction) : Prop := ∀ name, .branch name ∈ code → name = "WRITE"

/-- Only a branch is written with `BSR`. -/
theorem branch_of_prefix {instruction : Instruction}
    (h : "\tBSR ".toList <+: '\t' :: instruction.text.toList) :
    ∃ name, instruction = .branch name := by
  cases instruction with
  | branch name => exact ⟨name, rfl⟩
  | _ => simp [Instruction.text, String.toList_append, List.cons_prefix_cons] at h

/-- A listing is split into the lines of its instructions, with nothing behind the last line
feed. -/
theorem splitOn_listing {code : List Instruction} (h : ∀ i ∈ code, i.Plain) :
    (listing code).toList.splitOn '\n' =
      code.map (fun i => '\t' :: i.text.toList) ++ [[]] := by
  induction code with
  | nil => rfl
  | cons i code ih =>
    rw [List.forall_mem_cons] at h
    have hline : '\n' ∉ '\t' :: i.text.toList := by simp [Instruction.not_mem_text h.1]
    rw [toList_listing_cons, List.splitOn_append_cons_self_of_not_mem hline, ih h.2]
    rfl

/-- The line of a branch, cut in front of the name. -/
theorem toList_line_branch (name : String) :
    '\t' :: (Instruction.branch name).text.toList = "\tBSR ".toList ++ name.toList := by
  rw [Instruction.text, String.toList_append]
  rfl

/-- The listing of a code that calls nothing has no branches elsewhere, and the other way round. -/
theorem branchesElsewhere_listing {code : List Instruction} (h : ∀ i ∈ code, i.Plain) :
    BranchesElsewhere (listing code) ↔ ¬ CallsNothing code := by
  rw [BranchesElsewhere, splitOn_listing h]
  constructor
  · -- a line with `BSR` is that of a branch, and the last piece of the text is empty
    rintro ⟨line, hline, hprefix, hne⟩ hnothing
    rcases List.mem_append.1 hline with hline | hline
    · obtain ⟨i, hi, rfl⟩ := List.mem_map.1 hline
      obtain ⟨name, rfl⟩ := branch_of_prefix hprefix
      obtain rfl := hnothing name hi
      exact hne (toList_line_branch "WRITE")
    · rw [List.mem_singleton.1 hline] at hprefix
      exact absurd hprefix (by decide)
  · intro hnothing
    simp only [CallsNothing, not_forall] at hnothing
    obtain ⟨name, hmem, hname⟩ := hnothing
    -- the branch that calls something is the line that was asked for
    refine ⟨_, List.mem_append_left _ (List.mem_map_of_mem hmem), ?_, ?_⟩
    · exact ⟨name.toList, (toList_line_branch name).symm⟩
    · rw [toList_line_branch]
      intro heq
      have hwrite : "\tBSR WRITE".toList = "\tBSR ".toList ++ "WRITE".toList := by decide
      rw [hwrite] at heq
      exact hname (String.toList_injective (List.append_cancel_left heq))

/-! ## Programs without calls -/

/-- Two codes call nothing together if each of them does not. -/
theorem callsNothing_append {xs ys : List Instruction} :
    CallsNothing (xs ++ ys) ↔ CallsNothing xs ∧ CallsNothing ys := by
  simp only [CallsNothing, List.mem_append, or_imp, forall_and]

theorem callsNothing_combine (op : Operator) : CallsNothing (Listing.code (.combine op () ())) := by
  cases op <;> simp [CallsNothing, Listing.code]

theorem callsNothing_binary {op : Operator} {l r : Expr} :
    CallsNothing (Expr.binary op l r).code ↔ CallsNothing l.code ∧ CallsNothing r.code := by
  have hcode := Expr.append_code_binary [] op l r
  have hpush : CallsNothing [.push] := by simp [CallsNothing]
  rw [List.nil_append, List.nil_append] at hcode
  simp only [hcode, callsNothing_append, hpush, callsNothing_combine, and_true]

/-- For an assignment it depends on the expression. -/
theorem callsNothing_assign {name : String} {e : Expr} :
    CallsNothing (Stmt.assign name e).code ↔ CallsNothing e.code := by
  have hstore : CallsNothing [.address name, .store] := by simp [CallsNothing]
  simp only [Stmt.code, callsNothing_append, hstore, and_true]

/-- An expression spelled without calls has a code without. -/
theorem Expr.Spelled.callsNothing {level : Level} {e : Expr} {s : List Char}
    (h : Expr.Spelled false level e s) : CallsNothing e.code := by
  induction h with
  | number hds hw => simp [CallsNothing, Expr.code]
  | var hc hw => simp [CallsNothing, Expr.code]
  | call hcalls => cases hcalls
  | parens he hu hw ih => exact ih
  | term he ih => exact ih
  | expression he ih => exact ih
  | binary hop hl hr hw ihl ihr => exact callsNothing_binary.2 ⟨ihl, ihr⟩
  | signed hop hr hw ih => exact callsNothing_binary.2 ⟨by simp [CallsNothing, Expr.code], ih⟩

/-- An expression whose code calls nothing is also spelled without calls. Induction on the spelling,
with the code cut at its operands. -/
theorem Expr.Spelled.of_callsNothing {calls : Bool} {level : Level} {e : Expr} {s : List Char}
    (h : Expr.Spelled calls level e s) (hcode : CallsNothing e.code) :
    Expr.Spelled false level e s := by
  induction h with
  | number hds hw => exact .number hds hw
  | var hc hw => exact .var hc hw
  | @call c u v w hcalls hc hu hv hw =>
    -- the code of a call is a branch, and none to `WRITE`
    exact absurd (hcode (nameOf c) List.mem_cons_self) (nameOf_ne_write c)
  | parens he hu hw ih => exact .parens (ih hcode) hu hw
  | term he ih => exact .term (ih hcode)
  | expression he ih => exact .expression (ih hcode)
  | binary hop hl hr hw ihl ihr =>
    obtain ⟨hleft, hright⟩ := callsNothing_binary.1 hcode
    exact .binary hop (ihl hleft) (ihr hright) hw
  | signed hop hr hw ih => exact .signed hop (ih (callsNothing_binary.1 hcode).2) hw

/-- A statement spelled without calls branches to the output alone. -/
theorem Stmt.Spelled.callsNothing {statement : Stmt} {s : List Char}
    (h : Stmt.Spelled false statement s) : CallsNothing statement.code := by
  cases h with
  | print hc hu hw => simp [CallsNothing, Stmt.code]
  | input hc hds hu hv hw => simp [CallsNothing, Stmt.code]
  | assign hc hu hv he => exact callsNothing_assign.2 he.callsNothing

theorem Stmt.Spelled.of_callsNothing {calls : Bool} {statement : Stmt} {s : List Char}
    (h : Stmt.Spelled calls statement s) (hcode : CallsNothing statement.code) :
    Stmt.Spelled false statement s := by
  cases h with
  | print hc hu hw => exact .print hc hu hw
  | input hc hds hu hv hw => exact .input hc hds hu hv hw
  | assign hc hu hv he =>
    exact .assign hc hu hv (he.of_callsNothing (callsNothing_assign.1 hcode))

/-- Statements spelled without calls branch to the output alone. -/
theorem Statements.Spelled.callsNothing {statements : List Stmt} {s : List Char}
    (h : Statements.Spelled false statements s) : CallsNothing (statements.flatMap Stmt.code) := by
  induction h with
  | last hs he =>
    rw [List.flatMap_singleton]
    exact hs.callsNothing
  | cons hs he hss ih =>
    rw [List.flatMap_cons]
    exact callsNothing_append.2 ⟨hs.callsNothing, ih⟩

/-- And the other way round, one statement after another. -/
theorem Statements.Spelled.of_callsNothing {calls : Bool} {statements : List Stmt} {s : List Char}
    (h : Statements.Spelled calls statements s)
    (hcode : CallsNothing (statements.flatMap Stmt.code)) :
    Statements.Spelled false statements s := by
  induction h with
  | last hs he =>
    rw [List.flatMap_singleton] at hcode
    exact .last (hs.of_callsNothing hcode) he
  | cons hs he hss ih =>
    rw [List.flatMap_cons, callsNothing_append] at hcode
    exact .cons (hs.of_callsNothing hcode.1) he (ih hcode.2)

/-- The listing of a program is that of its code. -/
theorem text_of_spelled {program : List Stmt} {src : String} {p rest : List Char}
    (hp : Program.Spelled true program p) (hsrc : src.toList = p ++ ';' :: rest) :
    (compile (.ofText src)).sink.text = listing (program.flatMap Stmt.code) := by
  obtain ⟨state, hok, -, hsink, htext⟩ :=
    Listing.emits_driveAll program ⟨0, {}⟩ Sink.unlimited_empty
  have hprogram := Grammar.program_eq_ok Listing.semantics hp hsrc hok
  have hreport : compile (.ofText src) = _ := execute_eq_ok hprogram hsink
  rw [hreport, Sink.text_flushed]
  exact htext.trans String.empty_append

/-- A text that is compiled spells a program. -/
theorem spelled_of_compile {src : String} {n : Nat}
    (h : (compile (.ofText src)).result = .ok n) :
    ∃ program p rest, Program.Spelled true program p ∧ src.toList = p ++ ';' :: rest := by
  obtain ⟨q, hprogram, -⟩ := program_of_execute h
  obtain ⟨program, p, rest, hp, hsrc, -⟩ := Grammar.spelled_of_program hprogram
  exact ⟨program, p, rest, hp, hsrc⟩

/-- Programs without calls are known by their listings. -/
theorem not_branchesElsewhere_iff {program : List Stmt} {src : String} {p rest : List Char}
    (hp : Program.Spelled true program p) (hsrc : src.toList = p ++ ';' :: rest) :
    ¬ BranchesElsewhere (compile (.ofText src)).sink.text ↔ Program.Spelled false program p := by
  have htext := text_of_spelled hp hsrc
  obtain ⟨w, t, hw, ht, rfl⟩ := hp
  rw [htext, branchesElsewhere_listing ht.plain, not_not]
  constructor
  · exact fun hnothing => ⟨w, t, hw, ht.of_callsNothing hnothing, rfl⟩
  · rintro ⟨w', t', hw', ht', -⟩
    exact ht'.callsNothing

/-! ## Running -/

/-- What a run shows at its end: the variables or the fault, and what was printed. -/
def Report.shown {μ : Type} (report : Report μ) : Except Fault μ × String :=
  (report.result, report.sink.text)

/-- What a run of a program shows, whatever its text is. -/
def shown (program : List Stmt) : Except Fault Store × String :=
  match driveAll Evaluation.semantics program ⟨{}, {}⟩ with
  | .ok () state => (.ok state.memory, state.sink.text)
  | .error fault state => (.error fault, state.sink.text)

/-- Programs that differ in the form of their inputs show the same. -/
theorem shown_eq_of_desugar {program program' : List Stmt}
    (h : program.map Stmt.desugar = program'.map Stmt.desugar) :
    shown program = shown program' := by
  unfold shown
  rw [← driveAll_desugar _ program, h, driveAll_desugar]

def Fault.IsArithmetic (fault : Fault) : Prop := fault = .overflow ∨ fault = .divisionByZero

/-- A cause of arithmetic makes an arithmetic fault. -/
theorem Cause.IsArithmetic.fault {cause : Cause} (h : cause.IsArithmetic) :
    Fault.IsArithmetic { cause } := by
  rcases h with rfl | rfl
  · exact .inl rfl
  · exact .inr rfl

/-- The result is the fault of an arithmetic operation. -/
def FailsArithmetically {μ : Type} (result : Except Fault μ) : Prop :=
  ∃ fault, fault.IsArithmetic ∧ result = .error fault

/-- A program without calls shows what its tree does, and ends well or with an arithmetic fault. -/
theorem run_shown {program : List Stmt} {src : String} {p rest : List Char}
    (hp : Program.Spelled false program p) (hsrc : src.toList = p ++ ';' :: rest) :
    (run (.ofText src)).shown = shown program ∧
      ((∃ store, (run (.ofText src)).result = .ok store) ∨
        FailsArithmetically (run (.ofText src)).result) := by
  have hstatements := hp
  obtain ⟨w, t, hw, ht, -⟩ := hstatements
  -- from the empty store the tree does what it means on words
  have hruns : Runs (driveAll Evaluation.semantics program) ⟨{}, {}⟩ _ _ :=
    ht.runs Store.holds_empty Sink.unlimited_empty
  cases hresult : (outcome .checked (fun _ => 0) program).result with
  | ok vars =>
    rw [hresult] at hruns
    obtain ⟨state, hok, hran⟩ := hruns
    have hreport : run (.ofText src) = _ :=
      execute_eq_ok (Grammar.program_eq_ok Evaluation.semantics hp hsrc hok) hran.sink
    rw [hreport, shown, hok]
    exact ⟨congrArg (Prod.mk _) state.sink.text_flushed, .inl ⟨_, rfl⟩⟩
  | error cause =>
    rw [hresult] at hruns
    obtain ⟨hcause, state, herror, -⟩ := hruns
    obtain ⟨c, hprogram⟩ := Grammar.program_eq_error Evaluation.semantics hp hsrc herror
    have hreport : run (.ofText src) = _ := execute_eq_error hprogram
    rw [hreport, shown, herror]
    exact ⟨rfl, .inr ⟨_, hcause.fault, rfl⟩⟩

/-- Two texts that are compiled to the same listing, in which no subroutine but `WRITE` is called,
run alike: with the same variables at the end or the same fault of an arithmetic operation, and the
same output. -/
theorem run_eq_of_listing_eq {src src' : String} {n n' : Nat}
    (hcompiles : (compile (.ofText src)).result = .ok n)
    (hcompiles' : (compile (.ofText src')).result = .ok n')
    (hsame : (compile (.ofText src)).sink.text = (compile (.ofText src')).sink.text)
    (hbranches : ¬ BranchesElsewhere (compile (.ofText src)).sink.text) :
    (run (.ofText src)).result = (run (.ofText src')).result ∧
      (run (.ofText src)).sink.text = (run (.ofText src')).sink.text ∧
      ((∃ store, (run (.ofText src)).result = .ok store) ∨
        FailsArithmetically (run (.ofText src)).result) := by
  obtain ⟨program, p, rest, hp, hsrc⟩ := spelled_of_compile hcompiles
  obtain ⟨program', p', rest', hp', hsrc'⟩ := spelled_of_compile hcompiles'
  obtain ⟨hshown, hends⟩ := run_shown ((not_branchesElsewhere_iff hp hsrc).1 hbranches) hsrc
  obtain ⟨hshown', -⟩ :=
    run_shown ((not_branchesElsewhere_iff hp' hsrc').1 (hsame ▸ hbranches)) hsrc'
  -- both listings are read as the code that they were written from
  have hcode : program.flatMap Stmt.code = program'.flatMap Stmt.code := by
    rw [text_of_spelled hp hsrc, text_of_spelled hp' hsrc'] at hsame
    obtain ⟨w, t, hw, ht, -⟩ := hp
    obtain ⟨w', t', hw', ht', -⟩ := hp'
    have hread := assemble_listing ht.plain
    rw [hsame, assemble_listing ht'.plain] at hread
    exact (Option.some.inj hread).symm
  have hshow : (run (.ofText src)).shown = (run (.ofText src')).shown := by
    rw [hshown, hshown', shown_eq_of_desugar (Stmt.flatMap_code_inj hcode)]
  exact ⟨congrArg Prod.fst hshow, congrArg Prod.snd hshow, hends⟩

/-- The texts differ in layout, case, redundant parentheses, an input for an assignment, and behind
the `;`. -/
theorem run_eq_of_listing_eq_layout :
    (run (.ofText "?a 7\n!A b=(A/c);")).result = (run (.ofText "A=7!aB=a / (C);!")).result ∧
    (run (.ofText "?a 7\n!A b=(A/c);")).sink.text =
      (run (.ofText "A=7!aB=a / (C);!")).sink.text := by
  have hsame : (compile (.ofText "?a 7\n!A b=(A/c);")).sink.text =
      (compile (.ofText "A=7!aB=a / (C);!")).sink.text := by cbv
  have hbranches : ¬ BranchesElsewhere (compile (.ofText "?a 7\n!A b=(A/c);")).sink.text := by
    decide +kernel
  have hcompiles : (compile (.ofText "?a 7\n!A b=(A/c);")).result = .ok 12 := by cbv
  have hcompiles' : (compile (.ofText "A=7!aB=a / (C);!")).result = .ok 12 := by cbv
  obtain ⟨hresult, htext, -⟩ := run_eq_of_listing_eq hcompiles hcompiles' hsame hbranches
  exact ⟨hresult, htext⟩

end OnePass
