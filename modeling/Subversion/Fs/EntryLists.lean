/-
This file shows that the list of a directory's entries is a finite map from names to ids.
-/

import Subversion.Fs.Dag

namespace Subversion.Fs

open Delta

/-- No name has two entries. -/
def DistinctNames (entries : List Entry) : Prop := (entries.map Prod.fst).Nodup

/-- The ids of names, as their texts. -/
abbrev EntryMap := Bytes → Option Bytes

section Text

theorem mapM_skelEntry (entries : List Entry) :
    (entries.map entrySkel).mapM skelEntry = .ok entries := by
  induction entries with
  | nil => rfl
  | cons entry entries ih =>
      rw [List.map_cons, List.mapM_cons, ih]
      rfl

/-- Whatever the names are made of, the entries are read back as they were written. -/
theorem parseEntries_unparseEntries (entries : List Entry) :
    parseEntries (unparseEntries entries) = .ok entries := by
  rw [parseEntries, unparseEntries, parseSkel_unparseSkel]
  exact mapM_skelEntry entries

theorem unparseEntries_injective {first second : List Entry}
    (same : unparseEntries first = unparseEntries second) : first = second := by
  have read := parseEntries_unparseEntries first
  rw [same, parseEntries_unparseEntries] at read
  exact (Except.ok.inj read).symm

end Text

section Map

theorem findDirEntry_cons (entry : Entry) (entries : List Entry) (name : Bytes) :
    findDirEntry (entry :: entries) name =
      if entry.1 = name then some entry.2 else findDirEntry entries name := by
  rw [findDirEntry, List.lookup_cons]
  by_cases same : entry.1 = name
  · have equal : (name == entry.1) = true := by simp [same]
    rw [if_pos same, equal]
  · have different : (name == entry.1) = false := by simpa using Ne.symm same
    rw [if_neg same, different]
    rfl

theorem findDirEntry_eq_none {entries : List Entry} {name : Bytes} :
    findDirEntry entries name = none ↔ name ∉ entries.map Prod.fst := by
  induction entries with
  | nil => simp [findDirEntry]
  | cons entry entries ih =>
      rw [findDirEntry_cons, List.map_cons, List.mem_cons]
      by_cases same : entry.1 = name
      · simp [same]
      · rw [if_neg same, ih]
        simp [Ne.symm same]

/-- The replacement of an entry of a name, where there is one. -/
def replaceEntry (entries : List Entry) (name id : Bytes) : List Entry :=
  entries.replaceF fun entry => if entry.1 = name then some (name, id) else none

theorem replaceEntry_cons (entry : Entry) (entries : List Entry) (name id : Bytes) :
    replaceEntry (entry :: entries) name id =
      if entry.1 = name then (name, id) :: entries else entry :: replaceEntry entries name id := by
  rw [replaceEntry, List.replaceF]
  by_cases same : entry.1 = name
  · simp [same]
  · simp [same, replaceEntry]

theorem replaceEntry_names (entries : List Entry) (name id : Bytes) :
    (replaceEntry entries name id).map Prod.fst = entries.map Prod.fst := by
  induction entries with
  | nil => rfl
  | cons entry entries ih =>
      rw [replaceEntry_cons]
      split
      · next same => rw [List.map_cons, List.map_cons, same]
      · rw [List.map_cons, List.map_cons, ih]

theorem findDirEntry_replaceEntry {entries : List Entry} {name : Bytes}
    (present : findDirEntry entries name ≠ none) (id other : Bytes) :
    findDirEntry (replaceEntry entries name id) other =
      if other = name then some id else findDirEntry entries other := by
  induction entries with
  | nil => exact absurd rfl present
  | cons entry entries ih =>
      rw [replaceEntry_cons]
      by_cases same : entry.1 = name
      · rw [if_pos same, findDirEntry_cons, findDirEntry_cons, same]
        by_cases isName : other = name
        · rw [if_pos isName.symm, if_pos isName]
        · rw [if_neg (Ne.symm isName), if_neg isName, if_neg (Ne.symm isName)]
      · rw [findDirEntry_cons, if_neg same] at present
        rw [if_neg same, findDirEntry_cons, ih present, findDirEntry_cons entry]
        by_cases isName : other = name
        · rw [isName, if_neg same, if_pos rfl, if_pos rfl]
        · rw [if_neg isName, if_neg isName]

theorem tweakEntry_eq (entries : List Entry) (name id : Bytes) :
    tweakEntry entries name id =
      if findDirEntry entries name = none then (name, id) :: entries
      else replaceEntry entries name id := by
  rw [tweakEntry]
  cases findDirEntry entries name with
  | none => rfl
  | some text => rfl

/-- The set name gets the id, and other names keep theirs. -/
theorem findDirEntry_tweakEntry (entries : List Entry) (name id : Bytes) :
    findDirEntry (tweakEntry entries name id) =
      Function.update (findDirEntry entries) name (some id) := by
  funext other
  rw [tweakEntry_eq, Function.update_apply]
  by_cases absent : findDirEntry entries name = none
  · rw [if_pos absent, findDirEntry_cons]
    simp only [eq_comm]
  · rw [if_neg absent]
    exact findDirEntry_replaceEntry absent id other

theorem DistinctNames.tweakEntry {entries : List Entry} (distinct : DistinctNames entries)
    (name id : Bytes) : DistinctNames (tweakEntry entries name id) := by
  rw [tweakEntry_eq]
  by_cases absent : findDirEntry entries name = none
  · rw [if_pos absent, DistinctNames, List.map_cons, List.nodup_cons]
    exact ⟨findDirEntry_eq_none.mp absent, distinct⟩
  · rw [if_neg absent, DistinctNames, replaceEntry_names]
    exact distinct

theorem loseEntry_cons (entry : Entry) (entries : List Entry) (name : Bytes) :
    loseEntry (entry :: entries) name =
      if entry.1 = name then entries else entry :: loseEntry entries name := by
  rw [loseEntry, List.eraseP_cons]
  by_cases same : entry.1 = name
  · simp [same]
  · simp [same, loseEntry]

/-- Only the lost name has no id any more. That no other entry of it comes to light rests on the
distinctness of the names. -/
theorem DistinctNames.findDirEntry_loseEntry {entries : List Entry} (distinct : DistinctNames entries)
    (name : Bytes) :
    findDirEntry (loseEntry entries name) = Function.update (findDirEntry entries) name none := by
  induction entries with
  | nil =>
      funext other
      rw [Function.update_apply]
      split <;> rfl
  | cons entry entries ih =>
      rw [DistinctNames, List.map_cons, List.nodup_cons] at distinct
      obtain ⟨unused, rest⟩ := distinct
      funext other
      rw [loseEntry_cons, Function.update_apply]
      by_cases same : entry.1 = name
      · rw [if_pos same, findDirEntry_cons, same]
        by_cases isName : other = name
        · rw [if_pos isName, isName, ← same]
          exact findDirEntry_eq_none.mpr unused
        · rw [if_neg isName, if_neg (Ne.symm isName)]
      · rw [if_neg same, findDirEntry_cons, ih rest, Function.update_apply, findDirEntry_cons entry]
        by_cases isName : other = name
        · rw [isName, if_neg same, if_pos rfl, if_pos rfl]
        · rw [if_neg isName, if_neg isName]

theorem DistinctNames.loseEntry {entries : List Entry} (distinct : DistinctNames entries)
    (name : Bytes) : DistinctNames (loseEntry entries name) :=
  List.Nodup.sublist (List.Sublist.map Prod.fst List.eraseP_sublist) distinct

end Map

end Subversion.Fs
