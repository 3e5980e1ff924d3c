import OnePass.Proofs.Encoding
import OnePass.Proofs.Stores

/-!
# What a history of assignments leaves

Any names may have been assigned any values in any order. To a reader the store that is left says of
each name what it was assigned last (`Store.get_setAll`). As a list it has the names that are not
zero and no others (`Store.Canonical.mem_iff`), in the order of their bytes. So the list is settled
by what is read (`Store.Canonical.ext_get`): a table without any order, sorted by name when it is
asked for, comes to the same (`Store.Canonical.mergeSort_eq`). And what a history leaves is settled
by the last assignment to each name (`store_canonical`).
-/

namespace OnePass

/-- What a history assigns to a name last. -/
def lastAssigned (history : List (String × Word)) (name : String) : Option Word :=
  history.reverse.lookup name

/-- What comes later counts. -/
theorem lastAssigned_append (before behind : List (String × Word)) (name : String) :
    lastAssigned (before ++ behind) name =
      (lastAssigned behind name).or (lastAssigned before name) := by
  rw [lastAssigned, List.reverse_append, List.lookup_append]
  rfl

/-- The first assignment counts only if no later one does. -/
theorem lastAssigned_cons (first : String × Word) (behind : List (String × Word)) (name : String) :
    lastAssigned (first :: behind) name =
      (lastAssigned behind name).or (if name = first.1 then some first.2 else none) := by
  rw [← List.singleton_append, lastAssigned_append]
  congr 1
  by_cases h : name = first.1
  · rw [if_pos h, h]
    exact List.lookup_cons_self
  · rw [if_neg h]
    exact lookup_cons_of_ne h first.2 []

/-- Assignments to other names are of no matter. -/
theorem lastAssigned_filter (history : List (String × Word)) (p : String → Bool) (name : String) :
    lastAssigned (history.filter fun entry => p entry.1) name =
      if p name then lastAssigned history name else none := by
  rw [lastAssigned, ← List.filter_reverse, lookup_filter]
  rfl

/-- A name that a history does not mention is not assigned in it. -/
theorem lastAssigned_eq_none {history : List (String × Word)} {name : String}
    (h : name ∉ history.map Prod.fst) : lastAssigned history name = none := by
  induction history with
  | nil => rfl
  | cons first rest ih =>
    rw [List.map_cons, List.mem_cons, not_or] at h
    rw [lastAssigned_cons, ih h.2, if_neg h.1]
    rfl

namespace Store

/-- What was assigned last is read. -/
theorem get_setAll (store : Store) (history : List (String × Word)) (name : String) :
    (store.setAll history).get name = (lastAssigned history name).getD (store.get name) := by
  induction history generalizing store with
  | nil => rfl
  | cons first rest ih =>
    show ((store.set first.1 first.2).setAll rest).get name = _
    rw [ih, get_set, lastAssigned_cons]
    cases lastAssigned rest name with
    | some value => rfl
    | none => split <;> rfl

/-! ## The one list with the values -/

/-- The names are in order, each there once, and no zero is kept. -/
structure Canonical (store : Store) : Prop where
  ordered : store.Ordered
  ne_zero : ∀ entry ∈ store.entries, entry.2 ≠ 0

namespace Canonical

theorem empty : Canonical {} := ⟨ordered_empty, List.forall_mem_nil _⟩

variable {store store' : Store}

/-- To set a variable keeps the order, and an entry that becomes zero is dropped. -/
theorem set (h : store.Canonical) (name : String) (value : Word) :
    (store.set name value).Canonical := by
  refine ⟨h.ordered.set name value, fun entry hentry => ?_⟩
  rcases mem_set.1 hentry with ⟨rfl, hvalue⟩ | ⟨hold, -⟩
  · exact hvalue
  · exact h.ne_zero entry hold

theorem setAll (h : store.Canonical) (history : List (String × Word)) :
    (store.setAll history).Canonical := by
  induction history generalizing store with
  | nil => exact h
  | cons first rest ih => exact ih (h.set first.1 first.2)

/-- The entries are the names that are not zero, with what is read of them. -/
theorem mem_iff (h : store.Canonical) {entry : String × Word} :
    entry ∈ store.entries ↔ entry.2 ≠ 0 ∧ store.get entry.1 = entry.2 := by
  constructor
  · intro hentry
    exact ⟨h.ne_zero entry hentry, h.ordered.get_eq hentry⟩
  · rintro ⟨hvalue, hget⟩
    rw [get] at hget
    -- without an entry the name would be zero
    cases hlookup : store.entries.lookup entry.1 with
    | none =>
      rw [hlookup, Option.getD_none] at hget
      exact absurd hget.symm hvalue
    | some value =>
      rw [hlookup, Option.getD_some] at hget
      subst hget
      -- what a lookup finds stands somewhere in the list
      obtain ⟨before, behind, heq, -⟩ := List.lookup_eq_some_iff.1 hlookup
      rw [heq]
      exact List.mem_append_right _ List.mem_cons_self

/-- Stores of which the same is read are the same. -/
theorem ext_get (h : store.Canonical) (h' : store'.Canonical)
    (hget : ∀ name, store.get name = store'.get name) : store = store' := by
  refine h.ordered.ext h'.ordered fun entry => ?_
  rw [h.mem_iff, h'.mem_iff, hget]

/-- However the names that are not zero are kept with their values, each of them once, they are the
entries when they have been sorted by name. -/
theorem mergeSort_eq (h : store.Canonical) {table : List (String × Word)}
    (hnames : (table.map Prod.fst).Nodup)
    (hmem : ∀ entry, entry ∈ table ↔ entry.2 ≠ 0 ∧ store.get entry.1 = entry.2) :
    table.mergeSort (fun a b => decide (a.1 ≤ b.1)) = store.entries := by
  have hperm := List.mergeSort_perm table fun a b => decide (a.1 ≤ b.1)
  have hsorted : (table.mergeSort fun a b => decide (a.1 ≤ b.1)).Pairwise
      fun a b => decide (a.1 ≤ b.1) = true := by
    refine List.pairwise_mergeSort (fun a b c hab hbc => ?_) (fun a b => ?_) table
    · rw [decide_eq_true_eq] at *
      exact le_trans hab hbc
    · rw [Bool.or_eq_true, decide_eq_true_eq, decide_eq_true_eq]
      exact le_total a.1 b.1
  have hne : (table.mergeSort fun a b => decide (a.1 ≤ b.1)).Pairwise fun a b => a.1 ≠ b.1 :=
    List.pairwise_map.1 ((hperm.map Prod.fst).nodup_iff.2 hnames)
  -- sorted names of which no two are equal go up
  have hordered : Ordered ⟨table.mergeSort fun a b => decide (a.1 ≤ b.1)⟩ :=
    (hsorted.and hne).imp fun hab => lt_of_le_of_ne (of_decide_eq_true hab.1) hab.2
  have hsame := hordered.ext h.ordered fun entry => by rw [hperm.mem_iff, hmem, h.mem_iff]
  exact congrArg Store.entries hsame

end Canonical

/-! ## Histories -/

/-- What a history leaves of a store in which all is zero. -/
def after (history : List (String × Word)) : Store := setAll {} history

/-- A variable has what it was assigned last, or zero. -/
theorem get_after (history : List (String × Word)) (name : String) :
    (after history).get name = (lastAssigned history name).getD 0 := get_setAll {} history name

theorem canonical_after (history : List (String × Word)) : (after history).Canonical :=
  Canonical.empty.setAll history

/-- Histories with the same last assignments leave the same. -/
theorem after_eq {history history' : List (String × Word)}
    (h : ∀ name, (lastAssigned history name).getD 0 = (lastAssigned history' name).getD 0) :
    after history = after history' := by
  refine (canonical_after history).ext_get (canonical_after history') fun name => ?_
  rw [get_after, get_after, h]

/-- The last assignment to a name is read. -/
theorem get_after_of_last {before behind : List (String × Word)} {name : String} {value : Word}
    (h : name ∉ behind.map Prod.fst) :
    (after (before ++ (name, value) :: behind)).get name = value := by
  rw [get_after, lastAssigned_append, lastAssigned_cons, lastAssigned_eq_none h, if_pos rfl]
  rfl

/-- Assignments to different names may be exchanged. -/
theorem after_swap (before behind : List (String × Word)) {a b : String} (h : a ≠ b) (v w : Word) :
    after (before ++ (a, v) :: (b, w) :: behind) =
      after (before ++ (b, w) :: (a, v) :: behind) := by
  refine after_eq fun name => ?_
  simp only [lastAssigned_append, lastAssigned_cons]
  -- a later assignment hides both, and no name is assigned by both
  cases lastAssigned behind name with
  | some value => rfl
  | none =>
    by_cases ha : name = a
    · have hb : name ≠ b := fun hb => h (ha.symm.trans hb)
      simp only [if_pos ha, if_neg hb, Option.none_or, Option.or_none]
    · simp only [if_neg ha, Option.none_or, Option.or_none]

/-- An assignment counts for nothing if the name is assigned again. -/
theorem after_override (before between behind : List (String × Word)) (a : String) (v w : Word) :
    after (before ++ (a, v) :: between ++ (a, w) :: behind) =
      after (before ++ between ++ (a, w) :: behind) := by
  refine after_eq fun name => ?_
  simp only [lastAssigned_append, lastAssigned_cons]
  cases lastAssigned behind name with
  | some value => rfl
  | none =>
    by_cases ha : name = a
    · simp only [if_pos ha, Option.none_or, Option.some_or]
    · simp only [if_neg ha, Option.none_or, Option.or_none]

/-- To assign zero is to forget what was assigned before. -/
theorem after_zero (before behind : List (String × Word)) (a : String) :
    after (before ++ (a, 0) :: behind) =
      after (before.filter (fun entry => entry.1 ≠ a) ++ behind) := by
  refine after_eq fun name => ?_
  have hfilter := lastAssigned_filter before (fun name => decide (name ≠ a)) name
  simp only [lastAssigned_append, lastAssigned_cons, hfilter]
  -- zero is also what is read of a name that is left out
  cases lastAssigned behind name with
  | some value => rfl
  | none =>
    by_cases ha : name = a
    · simp [ha]
    · simp [ha]

theorem pairwise_bytesOf (history : List (String × Word)) :
    (after history).entries.Pairwise fun a b => bytesOf a.1 < bytesOf b.1 :=
  (canonical_after history).ordered.imp fun h => bytesOf_lt h

end Store

/-- A store is a total map. Whatever has been assigned in whatever order, what is read of a name is
what it was assigned last, or zero. The entries are the names that are not zero with their values,
in the order of their bytes, and so they are the same if and only if the same is read. Assignments
to different names commute, one to a name makes up for those before it, and to assign zero is never
to have assigned. -/
theorem store_canonical :
    (∀ (history : List (String × Word)) (name : String),
      (∀ before value behind, history = before ++ (name, value) :: behind →
        name ∉ behind.map Prod.fst → (Store.after history).get name = value) ∧
      (name ∉ history.map Prod.fst → (Store.after history).get name = 0)) ∧
    (∀ (history : List (String × Word)),
      (∀ name value, (name, value) ∈ (Store.after history).entries ↔
        value ≠ 0 ∧ (Store.after history).get name = value) ∧
      ((Store.after history).entries.map Prod.fst).Nodup ∧
      (Store.after history).entries.Pairwise fun a b => bytesOf a.1 < bytesOf b.1) ∧
    (∀ history history' : List (String × Word),
      (Store.after history).entries = (Store.after history').entries ↔
        ∀ name, (Store.after history).get name = (Store.after history').get name) ∧
    (∀ (before behind : List (String × Word)) (a b : String) (v w : Word), a ≠ b →
      Store.after (before ++ (a, v) :: (b, w) :: behind) =
        Store.after (before ++ (b, w) :: (a, v) :: behind)) ∧
    (∀ (before between behind : List (String × Word)) (a : String) (v w : Word),
      Store.after (before ++ (a, v) :: between ++ (a, w) :: behind) =
        Store.after (before ++ between ++ (a, w) :: behind)) ∧
    (∀ (before behind : List (String × Word)) (a : String),
      Store.after (before ++ (a, 0) :: behind) =
        Store.after (before.filter (fun entry => entry.1 ≠ a) ++ behind)) := by
  refine ⟨fun history name => ⟨?_, fun hname => ?_⟩, fun history => ⟨fun name value => ?_, ?_, ?_⟩,
    fun history history' => ?_, fun before behind a b v w h => Store.after_swap before behind h v w,
    Store.after_override, Store.after_zero⟩
  · rintro before value behind rfl hname
    exact Store.get_after_of_last hname
  · rw [Store.get_after, lastAssigned_eq_none hname, Option.getD_none]
  · -- of the entries: which they are, that no name comes twice, and their order
    exact (Store.canonical_after history).mem_iff
  · exact (Store.canonical_after history).ordered.nodup
  · exact Store.pairwise_bytesOf history
  · constructor
    · -- canonical stores that read alike have the same list
      intro h name
      rw [Store.get, Store.get, h]
    · intro h
      have hcanonical := Store.canonical_after history
      rw [hcanonical.ext_get (Store.canonical_after history') h]

/-- A name beyond the letters is assigned twice, and another one is given up. -/
theorem store_canonical_twice :
    let history : List (String × Word) := [("é", 5), ("B", -7), ("é", 6), ("B", 0)]
    ("é" ∉ [("B", (0 : Word))].map Prod.fst ∧ (Store.after history).get "é" = 6) ∧
      ("A" ∉ history.map Prod.fst ∧ (Store.after history).get "A" = 0) ∧
      ("B" ≠ "é" ∧ Store.after history =
        Store.after [("B", -7), ("é", 5), ("é", 6), ("B", 0)]) ∧
      ((6 : Word) ≠ 0 ∧ ("é", 6) ∈ (Store.after history).entries) := by
  intro history
  obtain ⟨hlast, hentries, -, hswap, -, -⟩ := store_canonical
  have hbehind : "é" ∉ [("B", (0 : Word))].map Prod.fst := by decide
  have hnever : "A" ∉ history.map Prod.fst := by decide
  have hget : (Store.after history).get "é" = 6 :=
    (hlast history "é").1 [("é", 5), ("B", -7)] 6 [("B", 0)] rfl hbehind
  refine ⟨⟨hbehind, hget⟩, ⟨hnever, (hlast history "A").2 hnever⟩, ⟨by decide, ?_⟩, ?_⟩
  · exact hswap [] [("é", 6), ("B", 0)] "é" "B" 5 (-7) (by decide)
  · have hvalue : (6 : Word) ≠ 0 := by decide
    exact ⟨hvalue, ((hentries history).1 "é" 6).2 ⟨hvalue, hget⟩⟩

end OnePass
