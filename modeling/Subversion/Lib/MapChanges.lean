/-
This file says what a list of changes between two maps has to be, and when a list is one.
-/

import Subversion.Lib.Tables

namespace Subversion.Lib

section Keys

variable {κ α : Type} {old new : κ → Option α} {changes : List (κ × Option α)}

/-- Each changed key stands once in the list, with its new value. -/
structure Exact (old new : κ → Option α) (changes : List (κ × Option α)) : Prop where
  nodup : (changes.map Prod.fst).Nodup
  mem_iff : ∀ key value, (key, value) ∈ changes ↔ old key ≠ new key ∧ value = new key

theorem Exact.mem_names_iff (exact : Exact old new changes) (key : κ) :
    key ∈ changes.map Prod.fst ↔ old key ≠ new key := by
  constructor
  · intro member
    obtain ⟨change, inside, rfl⟩ := List.mem_map.mp member
    exact ((exact.mem_iff change.1 change.2).mp inside).1
  · intro differ
    exact List.mem_map.mpr ⟨(key, new key), (exact.mem_iff key (new key)).mpr ⟨differ, rfl⟩, rfl⟩

theorem Exact.refl (map : κ → Option α) : Exact map map [] where
  nodup := List.nodup_nil
  mem_iff := fun _ _ => ⟨nofun, fun differ => absurd rfl differ.1⟩

/-- Some keys are looked at first, and the others behind them. -/
theorem Exact.append {first second : List (κ × Option α)} {looked : κ → Prop}
    (nodupFirst : (first.map Prod.fst).Nodup) (nodupSecond : (second.map Prod.fst).Nodup)
    (memFirst : ∀ key value, (key, value) ∈ first ↔ looked key ∧ old key ≠ new key ∧ value = new key)
    (memSecond : ∀ key value, (key, value) ∈ second ↔ ¬ looked key ∧ old key ≠ new key ∧ value = new key) :
    Exact old new (first ++ second) where
  nodup := by
    rw [List.map_append]
    refine List.nodup_append'.mpr ⟨nodupFirst, nodupSecond, ?_⟩
    intro key inFirst inSecond
    obtain ⟨change₁, member₁, rfl⟩ := List.mem_map.mp inFirst
    obtain ⟨change₂, member₂, same⟩ := List.mem_map.mp inSecond
    have other := ((memSecond change₂.1 change₂.2).mp member₂).1
    rw [same] at other
    exact other ((memFirst change₁.1 change₁.2).mp member₁).1
  mem_iff := by
    intro key value
    rw [List.mem_append, memFirst, memSecond]
    tauto

/-- At most one change is made for each entry of a table. -/
theorem nodup_filterMap_fst {σ : Type} {key : σ → κ} {change : σ → Option (κ × Option α)}
    (same : ∀ entry made, change entry = some made → made.1 = key entry) {entries : List σ}
    (nodup : (entries.map key).Nodup) : ((entries.filterMap change).map Prod.fst).Nodup := by
  have sublist : ((entries.filterMap change).map Prod.fst).Sublist (entries.map key) := by
    clear nodup
    induction entries with
    | nil => exact List.Sublist.refl _
    | cons entry rest ih =>
        cases made : change entry with
        | none =>
            rw [List.filterMap_cons_none made, List.map_cons]
            exact ih.cons (key entry)
        | some pair =>
            rw [List.filterMap_cons_some made, List.map_cons, List.map_cons, same entry pair made]
            exact ih.cons_cons (key entry)
  exact sublist.nodup nodup

end Keys

section Changes

variable {κ α : Type} [DecidableEq κ] {old new : κ → Option α} {changes : List (κ × Option α)}

/-- Without a value, the key goes. -/
def applyChanges (map : κ → Option α) (changes : List (κ × Option α)) : κ → Option α :=
  changes.foldl (fun map change => Function.update map change.1 change.2) map

/-- The changes lead from one map to the other, and there is nothing more in them. -/
structure Describes (old new : κ → Option α) (changes : List (κ × Option α)) : Prop where
  applied : applyChanges old changes = new
  nodup : (changes.map Prod.fst).Nodup
  changed : ∀ key ∈ changes.map Prod.fst, old key ≠ new key
  nil_iff : changes = [] ↔ old = new

theorem applyChanges_patched (changes : List (κ × Option α)) :
    ∀ old : κ → Option α, (∀ change ∈ changes, change.2 = new change.1) →
      applyChanges old changes = patched (changes.map Prod.fst) new old := by
  induction changes with
  | nil => exact fun _ _ => rfl
  | cons change rest ih =>
      intro old values
      rw [List.forall_mem_cons] at values
      rw [applyChanges, List.foldl_cons, ← applyChanges, ih _ values.2, values.1, patched_cons]
      rfl

theorem Exact.applied (exact : Exact old new changes) : applyChanges old changes = new := by
  rw [applyChanges_patched changes old fun change member => ((exact.mem_iff _ _).mp member).2]
  funext key
  rw [patched]
  split
  case isTrue => rfl
  case isFalse absent => exact not_not.mp fun differ => absent ((exact.mem_names_iff key).mpr differ)

theorem Exact.describes (exact : Exact old new changes) : Describes old new changes where
  applied := exact.applied
  nodup := exact.nodup
  changed := fun key member => (exact.mem_names_iff key).mp member
  nil_iff := by
    constructor
    · rintro rfl
      exact exact.applied
    · rintro rfl
      apply List.eq_nil_iff_forall_not_mem.mpr
      intro change member
      exact ((exact.mem_iff change.1 change.2).mp member).1 rfl

end Changes

end Subversion.Lib
