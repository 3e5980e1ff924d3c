import Mathlib
import OnePass.Store

/-!
# Reading a store

A store is a list with the zeros left out and its names in order, but to a reader it is a total map:
what was set last is read (`Store.get_set`), and everything else is zero.

As a list it has the entries that were set last (`Store.mem_set`), and assignments keep the names in
order, each of them once (`Store.Ordered.set`). So it is the only list in this order that has the
values (`Store.Ordered.ext`).
-/

namespace OnePass

theorem lookup_cons_of_ne {β : Type} {name key : String} (h : name ≠ key) (value : β)
    (entries : List (String × β)) :
    ((key, value) :: entries).lookup name = entries.lookup name := by
  rw [List.lookup_cons, beq_false_of_ne h]

/-- Looking a name up among the entries whose names have a property. -/
theorem lookup_filter {β : Type} (entries : List (String × β)) (p : String → Bool)
    (name : String) :
    (entries.filter fun entry => p entry.1).lookup name =
      if p name then entries.lookup name else none := by
  induction entries with
  | nil => cases p name <;> rfl
  | cons entry entries ih =>
    obtain ⟨key, value⟩ := entry
    rw [List.filter_cons]
    by_cases heq : name = key
    · subst heq
      cases hname : p name with
      | true => rw [if_pos rfl, List.lookup_cons_self, List.lookup_cons_self, if_pos rfl]
      | false => rw [if_neg Bool.false_ne_true, ih, hname, if_neg Bool.false_ne_true,
          if_neg Bool.false_ne_true]
    · rw [lookup_cons_of_ne heq, ← ih]
      cases p key with
      | true => rw [if_pos rfl, lookup_cons_of_ne heq]
      | false => rw [if_neg Bool.false_ne_true]

namespace Store

/-- The new entry of an assignment is of no matter to other names. -/
theorem lookup_new_of_ne {name other : String} (h : other ≠ name) (value : Word) :
    (if value = 0 then [] else [(name, value)]).lookup other = none := by
  split
  · rfl
  · rw [lookup_cons_of_ne h, List.lookup_nil]

/-- What was set is read, and everything else is as before. -/
theorem get_set (store : Store) (name : String) (value : Word) (other : String) :
    (store.set name value).get other = if other = name then value else store.get other := by
  have hsmaller := lookup_filter store.entries (fun key => key < name) other
  have hgreater := lookup_filter store.entries (fun key => name < key) other
  unfold get set
  rw [List.lookup_append, List.lookup_append, hsmaller, hgreater]
  -- an entry of another name is kept on the side of `name` that it stands on
  rcases lt_trichotomy other name with hlt | rfl | hgt
  · have hne : other ≠ name := ne_of_lt hlt
    have hnew := lookup_new_of_ne hne value
    simp [hlt, lt_asymm hlt, hne, hnew]
  · by_cases hzero : value = 0
    · simp [hzero]
    · simp [hzero]
  · have hne : other ≠ name := ne_of_gt hgt
    have hnew := lookup_new_of_ne hne value
    simp [hgt, lt_asymm hgt, hne, hnew]

variable {store : Store} {name : String} {value : Word}

/-! ## Entries -/

/-- The entries of an assignment: its own, unless it is zero, and those of all other names. -/
theorem mem_set {entry : String × Word} :
    entry ∈ (store.set name value).entries ↔
      entry = (name, value) ∧ value ≠ 0 ∨ entry ∈ store.entries ∧ entry.1 ≠ name := by
  have hnew : entry ∈ (if value = 0 then [] else [(name, value)]) ↔
      entry = (name, value) ∧ value ≠ 0 := by
    split
    · next hzero => simp [hzero]
    · next hzero => simp [hzero]
  simp only [set, List.mem_append, List.mem_filter, decide_eq_true_eq, hnew, ne_iff_lt_or_gt]
  tauto

/-- The entries are in the order of their names, each of which is there once. -/
def Ordered (store : Store) : Prop := store.entries.Pairwise fun a b => a.1 < b.1

/-- In an empty store there is nothing to put in order. -/
theorem ordered_empty : Ordered {} := List.Pairwise.nil

/-- In an order without equals no name is there twice. -/
theorem Ordered.nodup (h : store.Ordered) : (store.entries.map Prod.fst).Nodup :=
  List.Pairwise.map Prod.fst (fun _ _ hlt => ne_of_lt hlt) h

/-- The new entry stands between those of smaller and those of greater names. -/
theorem Ordered.set (h : store.Ordered) (name : String) (value : Word) :
    (store.set name value).Ordered := by
  have hnew : ∀ entry ∈ (if value = 0 then [] else [(name, value)]), entry.1 = name := by
    intro entry hentry
    split at hentry
    · cases hentry
    · rw [List.mem_singleton.1 hentry]
  have hsingle : (if value = 0 then [] else [(name, value)]).Pairwise
      fun a b : String × Word => a.1 < b.1 := by
    split
    · exact List.Pairwise.nil
    · exact List.pairwise_singleton _ _
  show List.Pairwise _ (_ ++ _ ++ _)
  apply List.pairwise_append.2
  refine ⟨List.pairwise_append.2 ⟨h.filter _, hsingle, ?_⟩, h.filter _, ?_⟩
  · intro a ha b hb
    rw [hnew b hb]
    simpa using (List.mem_filter.1 ha).2
  · intro a ha b hb
    have hgreater : name < b.1 := by simpa using (List.mem_filter.1 hb).2
    rcases List.mem_append.1 ha with ha | ha
    · have hsmaller : a.1 < name := by simpa using (List.mem_filter.1 ha).2
      exact lt_trans hsmaller hgreater
    · rwa [hnew a ha]

/-- What stands in a store is read. -/
theorem Ordered.get_eq (h : store.Ordered) {entry : String × Word}
    (hentry : entry ∈ store.entries) : store.get entry.1 = entry.2 := by
  obtain ⟨entries⟩ := store
  have hlookup : entries.lookup entry.1 = some entry.2 := by
    induction entries with
    | nil => cases hentry
    | cons first rest ih =>
      obtain ⟨hfirst, hrest⟩ := List.pairwise_cons.1 h
      rcases List.mem_cons.1 hentry with rfl | hbehind
      · exact List.lookup_cons_self
      · have hne : entry.1 ≠ first.1 := ne_of_gt (hfirst entry hbehind)
        rw [lookup_cons_of_ne hne, ih hrest hbehind]
  rw [get, hlookup, Option.getD_some]

/-- Stores that are in order are the same if they have the same entries. -/
theorem Ordered.ext {store' : Store} (h : store.Ordered) (h' : store'.Ordered)
    (hmem : ∀ entry, entry ∈ store.entries ↔ entry ∈ store'.entries) : store = store' := by
  -- without repetitions, lists with the same members are permutations of each other
  have hperm : store.entries.Perm store'.entries :=
    (List.perm_ext_iff_of_nodup h.nodup.of_map h'.nodup.of_map).2 hmem
  have heq : store.entries = store'.entries :=
    hperm.eq_of_pairwise (fun a b _ _ hab hba => absurd hab (lt_asymm hba)) h h'
  cases store
  cases store'
  exact congrArg mk heq

/-! ## One assignment after another -/

def setAll (store : Store) (entries : List (String × Word)) : Store :=
  entries.foldl (fun store entry => store.set entry.1 entry.2) store

/-- Many assignments keep the order, as one does. -/
theorem Ordered.setAll (h : store.Ordered) (entries : List (String × Word)) :
    (store.setAll entries).Ordered := by
  induction entries generalizing store with
  | nil => exact h
  | cons entry entries ih => exact ih (h.set entry.1 entry.2)

/-- Assignments to different names do not undo one another. -/
theorem mem_setAll {entries : List (String × Word)} (hnodup : (entries.map Prod.fst).Nodup)
    (hvalues : ∀ entry ∈ entries, entry.2 ≠ 0) {entry : String × Word} :
    entry ∈ (store.setAll entries).entries ↔
      entry ∈ entries ∨ entry ∈ store.entries ∧ entry.1 ∉ entries.map Prod.fst := by
  induction entries generalizing store with
  | nil => simp [setAll]
  | cons first rest ih =>
    rw [List.map_cons, List.nodup_cons] at hnodup
    obtain ⟨hfirst, hrest⟩ := List.forall_mem_cons.1 hvalues
    show entry ∈ ((store.set first.1 first.2).setAll rest).entries ↔ _
    rw [ih hnodup.2 hrest, mem_set, List.map_cons, List.mem_cons, List.mem_cons]
    -- the first entry is there in the end, since no other one has its name
    constructor
    · rintro (hentry | ⟨⟨rfl, -⟩ | ⟨hold, hne⟩, hnot⟩)
      · exact .inl (.inr hentry)
      · exact .inl (.inl rfl)
      · exact .inr ⟨hold, not_or.2 ⟨hne, hnot⟩⟩
    · rintro ((rfl | hentry) | ⟨hold, hnot⟩)
      · exact .inr ⟨.inl ⟨rfl, hfirst⟩, hnodup.1⟩
      · exact .inl hentry
      · obtain ⟨hne, hnot⟩ := not_or.1 hnot
        exact .inr ⟨.inr ⟨hold, hne⟩, hnot⟩

end Store

end OnePass
