import OnePass.Proofs.Assembly
import OnePass.Proofs.Evaluation
import OnePass.Proofs.Machine

/-!
# Compiling a program

Compilation writes the code of the tree that the text spells, line by line (`compile_eq_ok`), and
the listing is read as this code.
-/

namespace OnePass

namespace Listing

/-! ## What is written -/

/-- With room for everything the action writes the lines of the code and counts them. -/
def Emits (y : Action (Writing Nat) Unit) (code : List Instruction) : Prop :=
  ∀ state : Writing Nat, state.sink.Unlimited →
    ∃ state', y state = .ok () state' ∧ state'.memory = state.memory + code.length ∧
      state'.sink.Unlimited ∧ state'.sink.text = state.sink.text ++ listing code

/-- To do nothing writes no code. -/
theorem emits_pure : Emits (pure ()) [] := fun state hsink =>
  ⟨state, rfl, rfl, hsink, String.append_empty.symm⟩

/-- Code is written one piece behind the other, and counted together. -/
theorem Emits.bind {y : Action (Writing Nat) Unit} {f : Unit → Action (Writing Nat) Unit}
    {xs ys : List Instruction} (hy : Emits y xs) (hf : Emits (f ()) ys) :
    Emits (y >>= f) (xs ++ ys) := by
  intro state hsink
  obtain ⟨s₁, hok₁, hmemory₁, hsink₁, htext₁⟩ := hy state hsink
  obtain ⟨s₂, hok₂, hmemory₂, hsink₂, htext₂⟩ := hf s₁ hsink₁
  refine ⟨s₂, (Grammar.action_bind_of_ok hok₁).trans hok₂, ?_, hsink₂, ?_⟩
  · rw [hmemory₂, hmemory₁, List.length_append, Nat.add_assoc]
  · rw [htext₂, htext₁, listing_append, String.append_assoc]

/-- An instruction is one line, and counts as one. -/
theorem emits_emit (instruction : Instruction) : Emits (emit instruction) [instruction] := by
  intro state hsink
  have hwrite := Writing.write_eq_ok hsink instruction.line
  refine ⟨_, Grammar.action_bind_of_ok hwrite, rfl, hsink.append _, ?_⟩
  show (state.sink.append instruction.line).text = _
  rw [Sink.text_append]
  simp [listing]

/-- A step of compilation writes its code. -/
theorem emits_compile (step : Step Unit) : Emits (compile step) (code step) := by
  unfold compile
  induction code step with
  | nil => exact emits_pure
  | cons instruction code ih => exact (emits_emit instruction).bind ih

/-- A tree is compiled to its code, whatever it is. -/
theorem emits_drive (e : Expr) : Emits (e.drive semantics) e.code := by
  induction e with
  | zero => exact emits_compile .zero
  | number digits => exact emits_compile (.number digits)
  | var name => exact emits_compile (.load name)
  | call name => exact emits_compile (.call name)
  | binary op lhs rhs ihl ihr =>
    -- the code of an operator follows that of both operands, with a push in between
    have hright := ihr.bind (f := fun _ => compile (.combine op () ())) (emits_compile _)
    exact ihl.bind ((emits_compile (.hold ())).bind hright)

/-- A statement ends with the step that stores or prints, behind the code of its expression. -/
theorem emits_statement (s : Stmt) : Emits (s.drive semantics) s.code := by
  cases s with
  | print name => exact emits_compile (.print name)
  | input name digits =>
    exact (emits_compile (.number digits)).bind (emits_compile (.assign name ()))
  | assign name e => exact (emits_drive e).bind (emits_compile (.assign name ()))

/-- The code of statements is written in their order. -/
theorem emits_driveAll (statements : List Stmt) :
    Emits (driveAll semantics statements) (statements.flatMap Stmt.code) := by
  induction statements with
  | nil => exact emits_pure
  | cons s ss ih =>
    rw [List.flatMap_cons]
    exact (emits_statement s).bind ih

end Listing

/-! ## What is read -/

/-- A variable is written as a word. -/
theorem isWord_nameOf {c : Char} (hc : c.isAlpha = true) : Instruction.IsWord (nameOf c) := by
  have hupper : c.toUpper.isAlphanum = true := by
    rw [Char.isAlphanum, Char.isAlpha, isUpper_toUpper hc]
    rfl
  rw [Instruction.IsWord, toList_nameOf]
  exact ⟨List.cons_ne_nil _ _, by simpa using hupper⟩

theorem isWord_digits {ds : List Char} (hds : Digits ds) :
    Instruction.IsWord (String.ofList ds) := by
  rw [Instruction.IsWord, String.toList_ofList]
  refine ⟨hds.1, fun d hd => ?_⟩
  rw [Char.isAlphanum, hds.2 d hd, Bool.or_true]

/-- An operation has no operand. -/
theorem plain_combine (op : Operator) :
    ∀ i ∈ Listing.code (.combine op () ()), i.Plain := by
  cases op <;> simp [Listing.code, Instruction.Plain]

/-- The operands in the code of an expression are words, since they come from its text. -/
theorem Expr.Spelled.plain {calls : Bool} {level : Level} {e : Expr} {s : List Char}
    (h : Expr.Spelled calls level e s) : ∀ i ∈ e.code, i.Plain := by
  induction h with
  | number hds hw => exact List.forall_mem_singleton.2 (isWord_digits hds)
  | var hc hw => exact List.forall_mem_singleton.2 (isWord_nameOf hc)
  | call hcalls hc hu hv hw => exact List.forall_mem_singleton.2 (isWord_nameOf hc)
  | parens he hu hw ih => exact ih
  | term he ih => exact ih
  | expression he ih => exact ih
  | @binary level op l r s t w hop hl hr hw ihl ihr =>
    simp only [Expr.code, List.forall_mem_append, List.forall_mem_cons]
    exact ⟨ihl, trivial, ihr, plain_combine op⟩
  | @signed op r t w hop hr hw ih =>
    simp only [Expr.code, List.forall_mem_append, List.forall_mem_cons]
    -- the zero of a sign is cleared
    exact ⟨⟨trivial, List.forall_mem_nil _⟩, trivial, ih, plain_combine op⟩

theorem Stmt.Spelled.plain {calls : Bool} {statement : Stmt} {s : List Char}
    (h : Stmt.Spelled calls statement s) : ∀ i ∈ statement.code, i.Plain := by
  cases h with
  | print hc hu hw => simpa [Stmt.code, Instruction.Plain] using ⟨isWord_nameOf hc, by decide⟩
  | input hc hds hu hv hw =>
    simpa [Stmt.code, Instruction.Plain] using ⟨isWord_digits hds, isWord_nameOf hc⟩
  | assign hc hu hv he =>
    simp only [Stmt.code, List.forall_mem_append, List.forall_mem_cons]
    exact ⟨he.plain, isWord_nameOf hc, trivial, List.forall_mem_nil _⟩

theorem Statements.Spelled.plain {calls : Bool} {statements : List Stmt} {s : List Char}
    (h : Statements.Spelled calls statements s) :
    ∀ i ∈ statements.flatMap Stmt.code, i.Plain := by
  induction h with
  | last hs he => simpa using hs.plain
  | cons hs he hss ih =>
    rw [List.flatMap_cons, List.forall_mem_append]
    exact ⟨hs.plain, ih⟩

/-- A program that is spelled before a `;` is compiled to its code, and its listing says so. -/
theorem compile_eq_ok {program : List Stmt} {src : String} {p rest : List Char}
    (hp : Program.Spelled true program p) (hsrc : src.toList = p ++ ';' :: rest) :
    (compile (.ofText src)).result = .ok (program.flatMap Stmt.code).length ∧
      assemble (compile (.ofText src)).sink.text = some (program.flatMap Stmt.code) := by
  have hstatements := hp
  obtain ⟨w, t, hw, ht, -⟩ := hstatements
  obtain ⟨state', hok, hmemory, hsink, htext⟩ :=
    Listing.emits_driveAll program ⟨0, {}⟩ Sink.unlimited_empty
  -- the parser drives the steps, and the steps write the code
  have hprogram := Grammar.program_eq_ok Listing.semantics hp hsrc hok
  have hreport : compile (.ofText src) = _ := execute_eq_ok hprogram hsink
  rw [hreport]
  refine ⟨?_, ?_⟩
  · rw [hmemory, Nat.zero_add]
  · have hlisting : state'.sink.text = listing (program.flatMap Stmt.code) :=
      htext.trans String.empty_append
    rw [Sink.text_flushed, hlisting, assemble_listing ht.plain]

end OnePass
