/-
This file looks names up in lists of pairs in which every name stands once.
-/

import Mathlib.Data.List.Nodup
import Mathlib.Data.List.Perm.Basic
import Mathlib.Logic.Function.Basic

namespace Subversion.Lib

section Lookup

variable {κ α β : Type} [BEq κ] [LawfulBEq κ]

theorem lookup_eq_some_iff {table : List (κ × α)} (nodup : (table.map Prod.fst).Nodup) {key : κ} {value : α} :
    table.lookup key = some value ↔ (key, value) ∈ table := by
  induction table with
  | nil => simp
  | cons entry rest ih =>
      obtain ⟨first, found⟩ := entry
      rw [List.map_cons, List.nodup_cons] at nodup
      rw [List.lookup_cons, List.mem_cons]
      by_cases same : key = first
      · subst same
        rw [beq_self_eq_true]
        constructor
        · intro equal
          cases equal
          exact .inl rfl
        · rintro (equal | later)
          · cases equal
            rfl
          · exact absurd (List.mem_map_of_mem later) nodup.1
      · rw [beq_eq_false_iff_ne.mpr same, ih nodup.2]
        constructor
        · exact .inr
        · rintro (equal | later)
          · exact absurd (congrArg Prod.fst equal) same
          · exact later

theorem lookup_eq_none_iff {table : List (κ × α)} {key : κ} :
    table.lookup key = none ↔ key ∉ table.map Prod.fst := by
  induction table with
  | nil => simp
  | cons entry rest ih =>
      rw [List.lookup_cons, List.map_cons, List.mem_cons, not_or]
      by_cases same : key = entry.1
      · simp [same]
      · rw [beq_eq_false_iff_ne.mpr same, ih]
        exact ⟨fun absent => ⟨same, absent⟩, fun absent => absent.2⟩

omit [LawfulBEq κ] in
theorem lookup_map_snd (f : α → β) (table : List (κ × α)) (key : κ) :
    (table.map fun entry => (entry.1, f entry.2)).lookup key = (table.lookup key).map f := by
  induction table with
  | nil => rfl
  | cons entry rest ih =>
      rw [List.map_cons, List.lookup_cons, List.lookup_cons]
      cases key == entry.1
      · exact ih
      · rfl

theorem lookup_filter {table : List (κ × α)} {key : κ} {keeps : κ × α → Bool}
    (kept : ∀ entry ∈ table, entry.1 = key → keeps entry = true) :
    (table.filter keeps).lookup key = table.lookup key := by
  induction table with
  | nil => rfl
  | cons entry rest ih =>
      have later := ih fun other member => kept other (List.mem_cons_of_mem _ member)
      by_cases keep : keeps entry = true
      · rw [List.filter_cons_of_pos keep, List.lookup_cons, List.lookup_cons, later]
      · have differ : key ≠ entry.1 := fun same => keep (kept entry List.mem_cons_self same.symm)
        rw [List.filter_cons_of_neg keep, later, List.lookup_cons, beq_eq_false_iff_ne.mpr differ]

end Lookup

section Patches

variable {κ α : Type} [DecidableEq κ]

/-- New values for some names, and the old ones for all others. -/
def patched (names : List κ) (new old : κ → α) (key : κ) : α :=
  if key ∈ names then new key else old key

theorem patched_perm {names others : List κ} (perm : names.Perm others) (new old : κ → α) :
    patched names new old = patched others new old := by
  funext key
  simp only [patched, perm.mem_iff]

theorem patched_cons (name : κ) (names : List κ) (new old : κ → α) :
    patched names new (Function.update old name (new name)) = patched (name :: names) new old := by
  funext key
  rw [patched, patched]
  by_cases same : key = name
  · subst same
    rw [Function.update_self, if_pos List.mem_cons_self, ite_self]
  · rw [Function.update_of_ne same]
    by_cases member : key ∈ names
    · rw [if_pos member, if_pos (List.mem_cons_of_mem _ member)]
    · rw [if_neg member, if_neg (by simp [same, member])]

theorem patched_none {β : Type} {names : List κ} {new : κ → Option β}
    (noOthers : ∀ name, name ∉ names → new name = none) : patched names new (fun _ => none) = new := by
  funext name
  rw [patched]
  split
  · rfl
  · next absent => exact (noOthers name absent).symm

end Patches

section Changes

variable {κ α : Type} [BEq κ] [LawfulBEq κ] [DecidableEq κ]

def erased (table : List (κ × α)) (name : κ) : List (κ × α) := table.filter fun entry => entry.1 ≠ name

def placed (table : List (κ × α)) (name : κ) (value : α) : List (κ × α) := (name, value) :: erased table name

/-- The first value of the name is replaced in its place. -/
def replaced (name : κ) (value : α) : List (κ × α) → List (κ × α)
  | [] => []
  | (first, found) :: rest =>
      if name = first then (first, value) :: rest else (first, found) :: replaced name value rest

theorem lookup_erased (table : List (κ × α)) (name other : κ) :
    (erased table name).lookup other = if other = name then none else table.lookup other := by
  by_cases same : other = name
  · rw [if_pos same, lookup_eq_none_iff, same]
    intro member
    obtain ⟨entry, kept, isName⟩ := List.mem_map.mp member
    have differs := (List.mem_filter.mp kept).2
    rw [decide_eq_true_eq] at differs
    exact differs isName
  · rw [if_neg same, erased]
    refine lookup_filter fun entry _ isOther => ?_
    rw [decide_eq_true_eq, isOther]
    exact same

theorem lookup_placed (table : List (κ × α)) (name : κ) (value : α) (other : κ) :
    (placed table name value).lookup other = if other = name then some value else table.lookup other := by
  rw [placed, List.lookup_cons]
  by_cases same : other = name
  · subst same
    rw [beq_self_eq_true, if_pos rfl]
  · rw [beq_eq_false_iff_ne.mpr same, if_neg same, lookup_erased, if_neg same]

theorem lookup_replaced (name : κ) (value : α) (table : List (κ × α)) (other : κ) :
    (replaced name value table).lookup other =
      if other = name then (table.lookup name).map fun _ => value else table.lookup other := by
  induction table with
  | nil => exact (ite_self _).symm
  | cons entry rest ih =>
      obtain ⟨first, found⟩ := entry
      rw [replaced]
      by_cases here : name = first
      · subst here
        rw [if_pos rfl, List.lookup_cons, List.lookup_cons, List.lookup_cons]
        by_cases same : other = name
        · subst same
          rw [beq_self_eq_true, if_pos rfl]
          rfl
        · rw [beq_eq_false_iff_ne.mpr same, if_neg same]
      · rw [if_neg here, List.lookup_cons, List.lookup_cons, List.lookup_cons, ih,
          beq_eq_false_iff_ne.mpr here]
        by_cases isFirst : other = first
        · subst isFirst
          rw [beq_self_eq_true]
          exact (if_neg fun same : other = name => here same.symm).symm
        · rw [beq_eq_false_iff_ne.mpr isFirst]

theorem replaced_self {name : κ} {value : α} {table : List (κ × α)} (found : table.lookup name = some value) :
    replaced name value table = table := by
  induction table with
  | nil => rfl
  | cons entry rest ih =>
      obtain ⟨first, old⟩ := entry
      rw [List.lookup_cons] at found
      rw [replaced]
      by_cases here : name = first
      · subst here
        rw [beq_self_eq_true] at found
        rw [if_pos rfl, Option.some.inj found]
      · rw [beq_eq_false_iff_ne.mpr here] at found
        rw [if_neg here, ih found]

end Changes

end Subversion.Lib
