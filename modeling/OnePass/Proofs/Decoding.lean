import OnePass.Proofs.Counting
import OnePass.Proofs.Decompilation

/-!
# Listings are decoded in one way

Operands stand in a listing as they are, and five instructions are written `MOVE`, so two
instructions may have the same line if anything may be an operand. A word ends where its letters
and digits end, and then the letters around it tell which instruction it belongs to. So what
`assemble` reads are the listings of plain instructions and no other texts, and each is read as what
it is a listing of.

* **`ofText?_eq_some_iff`**, **`assemble_eq_some_iff`** — the texts that are read, of an instruction
  and of a listing.
* **`performAll_of_unlimited`** — with room for everything a sink has the whole code of the steps.
* **`listings_decode_uniquely`** — no two codes share a listing, and what any steps have written is
  decoded again: all of it, or as many instructions as there was room for.
-/

namespace OnePass

variable {σ α : Type}

namespace Instruction

/-! ## One instruction -/

/-- What is read as an operand is a word, and it stands between the given letters. -/
theorem operandOf_eq_some {before after operand : String} {text : List Char}
    (h : operandOf before after text = some operand) :
    IsWord operand ∧ text = before.toList ++ (operand.toList ++ after.toList) := by
  simp only [operandOf] at h
  split at h
  · next hword =>
    obtain ⟨hne, htext⟩ := hword
    cases h
    rw [IsWord, String.toList_ofList]
    exact ⟨⟨hne, fun c hc => List.mem_takeWhile_imp hc⟩, htext⟩
  · cases h

/-- An instruction whose operand stands between two pieces of text is read with a word. -/
theorem plain_of_operandOf {before after : String} {text : List Char} {i : Instruction}
    {make : String → Instruction} (h : (operandOf before after text).map make = some i)
    (hplain : ∀ operand, IsWord operand → (make operand).Plain)
    (htext : ∀ operand, (make operand).text = before ++ operand ++ after) :
    i.Plain ∧ text = i.text.toList := by
  obtain ⟨operand, hoperand, rfl⟩ := Option.map_eq_some_iff.1 h
  obtain ⟨hword, hread⟩ := operandOf_eq_some hoperand
  refine ⟨hplain operand hword, ?_⟩
  rw [hread, htext, String.toList_append, String.toList_append, List.append_assoc]

theorem plain_of_mem_withoutOperand : ∀ i ∈ withoutOperand, i.Plain := by
  simp [withoutOperand, Plain]

/-- A text that is read as an instruction is its text, and the operand is a word. -/
theorem plain_of_ofText? {text : List Char} {i : Instruction} (h : ofText? text = some i) :
    i.Plain ∧ text = i.text.toList := by
  simp only [ofText?, Option.orElse_eq_some] at h
  rcases h with h | ⟨-, h | ⟨-, h | ⟨-, h | ⟨-, h⟩⟩⟩⟩
  · exact plain_of_operandOf h (fun _ hword => hword) fun _ => rfl
  · exact plain_of_operandOf h (fun _ hword => hword) fun _ => rfl
  · exact plain_of_operandOf h (fun _ hword => hword) fun _ => rfl
  · exact plain_of_operandOf h (fun _ hword => hword) fun _ => String.append_empty.symm
  · have htext := List.find?_some h
    exact ⟨plain_of_mem_withoutOperand i (List.mem_of_find?_eq_some h),
      (of_decide_eq_true htext).symm⟩

/-- A text is read as an instruction exactly if it is the text of it and the operand is a word. -/
theorem ofText?_eq_some_iff {text : List Char} {i : Instruction} :
    ofText? text = some i ↔ i.Plain ∧ text = i.text.toList := by
  constructor
  · exact plain_of_ofText?
  · rintro ⟨hplain, rfl⟩
    exact ofText?_text hplain

/-- A line that is read has a tab in front of such a text. -/
theorem plain_of_ofLine? {line : List Char} {i : Instruction} (h : ofLine? line = some i) :
    i.Plain ∧ line = '\t' :: i.text.toList := by
  unfold ofLine? at h
  split at h
  · obtain ⟨hplain, rfl⟩ := ofText?_eq_some_iff.1 h
    exact ⟨hplain, rfl⟩
  · cases h

-- without words for operands there is no telling what a line says
example : (constant "X(PC)").line = (load "#X").line := by decide

end Instruction

/-! ## Listings -/

/-- Lines that are read as instructions are the lines of these, with nothing behind the last. -/
theorem plain_of_assembleLines {lines : List (List Char)} {code : List Instruction}
    (h : assembleLines lines = some code) :
    (∀ i ∈ code, i.Plain) ∧ lines = code.map (fun i => '\t' :: i.text.toList) ++ [[]] := by
  fun_induction assembleLines lines generalizing code with
  | case1 =>
    cases h
    exact ⟨List.forall_mem_nil _, rfl⟩
  | case2 line rest hlast ih =>
    obtain ⟨i, hi, h⟩ := Option.bind_eq_some_iff.1 h
    obtain ⟨later, hlater, h⟩ := Option.bind_eq_some_iff.1 h
    cases h
    obtain ⟨hfirst, rfl⟩ := Instruction.plain_of_ofLine? hi
    obtain ⟨hplain, rfl⟩ := ih hlater
    exact ⟨List.forall_mem_cons.2 ⟨hfirst, hplain⟩, rfl⟩
  | case3 => cases h

/-- A text is read as the code if it is the listing of it and all operands are words. -/
theorem assemble_eq_some_iff {text : String} {code : List Instruction} :
    assemble text = some code ↔ (∀ i ∈ code, i.Plain) ∧ text = listing code := by
  constructor
  · intro h
    obtain ⟨hplain, hlines⟩ := plain_of_assembleLines h
    refine ⟨hplain, String.toList_injective ?_⟩
    -- a text is its lines with line feeds in between
    rw [← splitOn_listing hplain] at hlines
    have hjoined := congrArg (List.intercalate ['\n']) hlines
    rwa [List.intercalate_splitOn, List.intercalate_splitOn] at hjoined
  · rintro ⟨hplain, rfl⟩
    exact assemble_listing hplain

/-! ## What has been written -/

namespace Listing

/-- With room for everything the code of the steps is added to the sink. -/
theorem performAll_of_unlimited {s : Writing Nat} (hs : s.sink.Unlimited)
    (steps : List (Step Unit)) :
    (semantics.performAll steps s).sink.text =
      s.sink.text ++ listing (steps.flatMap Listing.code) := by
  induction steps generalizing s with
  | nil => exact String.append_empty.symm
  | cons step steps ih =>
    obtain ⟨answer, hstep⟩ := perform_eq_ok step
    obtain ⟨s', hok, -, hs', htext⟩ := hstep s hs
    rw [Semantics.performAll, List.foldl_cons, hok]
    refine (ih hs').trans ?_
    rw [htext, List.flatMap_cons, listing_append, String.append_assoc]

/-- The complete lines in the sink are those of the instructions that have been counted. Where there
is room for everything, these are all. -/
theorem assemble_performAll (limit : Option Nat) {steps : List (Step Unit)}
    (hplain : ∀ i ∈ steps.flatMap Listing.code, i.Plain) :
    let s := semantics.performAll steps ⟨0, { room := limit }⟩
    assemble (completeLines s.sink.text) = some ((steps.flatMap Listing.code).take s.memory) ∧
      (limit = none → assemble s.sink.text = some (steps.flatMap Listing.code)) := by
  intro s
  refine ⟨?_, ?_⟩
  · have hstart : Complete [] ⟨0, { room := limit }⟩ := ⟨Sink.text_start limit false, rfl⟩
    rcases performAll_of_complete hstart steps with hcomplete | ⟨hfull, -⟩
    · -- with room for everything nothing is cut
      have htext : s.sink.text = listing (steps.flatMap Listing.code) ++ String.ofList [] :=
        hcomplete.text.trans (by rw [String.ofList_nil, String.append_empty, List.nil_append])
      have hcount : s.memory = (steps.flatMap Listing.code).length := hcomplete.count
      rw [htext, hcount, completeLines_append _ List.not_mem_nil, List.take_length]
      exact assemble_listing hplain
    · -- the line that was cut has no line feed, and the lines before it have been counted
      obtain ⟨done, next, rest, tail, more, hcode, hline, hmore, htext, hcount⟩ := hfull.lines
      rw [List.nil_append] at hcode
      rw [hcode, List.forall_mem_append, List.forall_mem_cons] at hplain
      obtain ⟨hdone, hnext, -⟩ := hplain
      have htail := not_mem_of_line (Instruction.not_mem_text hnext) hline hmore
      rw [htext, hcount, completeLines_append done htail, hcode, List.take_left]
      exact assemble_listing hdone
  · rintro rfl
    have htext : s.sink.text = listing (steps.flatMap Listing.code) :=
      (performAll_of_unlimited Sink.unlimited_empty steps).trans String.empty_append
    rw [htext]
    exact assemble_listing hplain

end Listing

/-- The operands of all that a parser tells of are words. -/
theorem plain_of_mem_toldSteps (m : Clocked σ α) (source : Source) (state : σ)
    (goals : List Grammar.Goal) :
    ∀ i ∈ (toldSteps m source state goals).flatMap Listing.code, i.Plain := by
  have hmakes : m.Makes fun call => ∀ i ∈ Listing.code call.step, i.Plain :=
    fun _ _ _ hwritten _ => hwritten.plain
  intro i hi
  obtain ⟨step, hstep, hi⟩ := List.mem_flatMap.1 hi
  obtain ⟨call, hcall, rfl⟩ := List.mem_map.1 hstep
  exact hmakes.of_mem_callsOf source state goals call hcall i hi

/-! ## Every listing -/

/-- If all operands are nonempty words of letters and digits, a listing determines its code, and the
reader of listings finds it; it accepts no other texts. Whatever steps are performed with such
operands, what is in the sink is decoded: the complete lines as the instructions that have been
counted, and these are all where there is room for everything. So is what is compiled of a text,
whatever is asked of its parser and whatever comes of it. -/
theorem listings_decode_uniquely :
    (∀ code code' : List Instruction, (∀ i ∈ code, i.Plain) → (∀ i ∈ code', i.Plain) →
      listing code = listing code' → code = code') ∧
    (∀ (text : String) (code : List Instruction),
      assemble text = some code ↔ (∀ i ∈ code, i.Plain) ∧ text = listing code) ∧
    (∀ (limit : Option Nat) (steps : List (Step Unit)),
      (∀ i ∈ steps.flatMap Listing.code, i.Plain) →
      let s := Listing.semantics.performAll steps ⟨0, { room := limit }⟩
      assemble (completeLines s.sink.text) = some ((steps.flatMap Listing.code).take s.memory) ∧
        (limit = none → assemble s.sink.text = some (steps.flatMap Listing.code))) ∧
    ∀ (limit : Option Nat) (source : Source) (goals : List Grammar.Goal),
      let m := Listing.semantics.timeless
      let start : Writing Nat := ⟨0, { room := limit }⟩
      let code := (toldSteps m source start goals).flatMap Listing.code
      let s := (Grammar.stand m goals (.start source start)).state
      (∀ i ∈ code, i.Plain) ∧
        assemble (completeLines s.sink.text) = some (code.take s.memory) ∧
        (limit = none → assemble s.sink.text = some code) := by
  refine ⟨fun code code' hcode hcode' hsame => ?_, fun _ _ => assemble_eq_some_iff,
    fun limit _ hplain => Listing.assemble_performAll limit hplain, ?_⟩
  · -- both codes are what their common listing is read as
    have hread := assemble_listing hcode
    rw [hsame, assemble_listing hcode'] at hread
    exact (Option.some.inj hread).symm
  · intro limit source goals m start code s
    have hplain : ∀ i ∈ code, i.Plain := plain_of_mem_toldSteps m source start goals
    -- attempts of a parser are the steps that they hand over
    have hstate : s = _ := stand_eq_performAll Listing.semantics source start goals
    rw [hstate]
    exact ⟨hplain, Listing.assemble_performAll limit hplain⟩

/-- Five instructions of a text that is refused behind them, with room for four lines and a part of
the fifth. -/
theorem listings_decode_uniquely_cut :
    let code : List Instruction := [.constant "8", .push, .load "X", .popDivisor, .div]
    let s := (Grammar.stand Listing.semantics.timeless [.program]
      (.start (.ofText "q=8/x)") ⟨0, { room := some 60 }⟩)).state
    (∀ i ∈ code, i.Plain) ∧ assemble (listing code) = some code ∧
    (∀ code' : List Instruction, (∀ i ∈ code', i.Plain) → listing code = listing code' →
      code = code') ∧
    s.sink.text = listing (code.take 4) ++ "\tDI" ∧
    assemble (completeLines s.sink.text) = some (code.take 4) := by
  intro code s
  obtain ⟨hinjective, hread, -, hcompiled⟩ := listings_decode_uniquely
  have hdigit : Instruction.IsWord "8" := by decide
  have hletter : Instruction.IsWord "X" := by decide
  have hplain : ∀ i ∈ code, i.Plain := by simp [code, Instruction.Plain, hdigit, hletter]
  obtain ⟨-, hcut, -⟩ := hcompiled (some 60) (.ofText "q=8/x)") [.program]
  refine ⟨hplain, (hread _ _).2 ⟨hplain, rfl⟩, fun code' => hinjective code code' hplain, ?_, ?_⟩
  · decide +kernel
  · exact hcut.trans (by decide +kernel)

end OnePass
