/-
This file shows what reverting leaves of a file and of the properties of an item.
-/

import Subversion.Wc.EntryRows

namespace Subversion.Wc

open Delta Subr Lib

/-- The entries of a directory, or none if they cannot be read. -/
def WcDir.listed (format : TimeFormat) (dir : WcDir) : EntriesHash :=
  match entriesRead format dir.adm.entries with
  | .ok entries => entries
  | .error _ => ∅

def WcDir.row (format : TimeFormat) (dir : WcDir) (name : Bytes) : Option Row := rowIn (dir.listed format) name

def WcDir.url (format : TimeFormat) (dir : WcDir) : Option Bytes := thisUrl (dir.listed format)

def WcDir.Fits (format : TimeFormat) (dir : WcDir) (name : Bytes) : Prop := UrlFits (dir.listed format) name

def WcDir.Sound (format : TimeFormat) (dir : WcDir) : Prop := Readable format dir.adm.entries (dir.listed format)

/-- The entry names a file that holds a part of its conflict. -/
def Row.Mentions (row : Row) (file : Bytes) : Prop :=
  row.conflictOld = some file ∨ row.conflictNew = some file ∨ row.conflictWrk = some file ∨
    row.prejfile = some file

/-- A part of a directory that is as it was. -/
structure SameItem (format : TimeFormat) (name : Bytes) (before after : WcDir) : Prop where
  inner : after.inner.lookup name = before.inner.lookup name
  props : after.adm.props name = before.adm.props name
  propBase : after.adm.propBase name = before.adm.propBase name
  textBase : after.adm.textBase name = before.adm.textBase name
  row : after.row format name = before.row format name

/-- What a step on some names leaves of a directory. -/
structure Kept (format : TimeFormat) (touched : Bytes → Prop) (before after : WcDir) : Prop where
  sound : after.Sound format
  url : after.url format = before.url format
  fits : ∀ name, name ≠ thisDirName → before.Fits format name → after.Fits format name
  noRow : ∀ name, before.row format name = none → after.row format name = none
  dirProps : ¬ touched thisDirName → after.adm.dirProps = before.adm.dirProps
  dirPropBase : after.adm.dirPropBase = before.adm.dirPropBase
  items : ∀ name, ¬ touched name → SameItem format name before after

section Directories

variable {format : TimeFormat} {dir before middle after : WcDir} {touched others : Bytes → Prop} {name : Bytes}

theorem listed_of_read {entries : EntriesHash} (read : entriesRead format dir.adm.entries = .ok entries) :
    dir.listed format = entries := by
  rw [WcDir.listed, read]

theorem listed_of_readable {entries : EntriesHash} (readable : Readable format dir.adm.entries entries) :
    dir.listed format = entries :=
  listed_of_read readable.read

theorem SameItem.trans (early : SameItem format name before middle) (late : SameItem format name middle after) :
    SameItem format name before after where
  inner := late.inner.trans early.inner
  props := late.props.trans early.props
  propBase := late.propBase.trans early.propBase
  textBase := late.textBase.trans early.textBase
  row := late.row.trans early.row

theorem SameItem.below (same : SameItem format name before after) : after.below name = before.below name := by
  rw [WcDir.below, WcDir.below, same.inner]

theorem Kept.trans (early : Kept format touched before middle) (late : Kept format others middle after) :
    Kept format (fun name => touched name ∨ others name) before after where
  sound := late.sound
  url := late.url.trans early.url
  fits := fun name named fits => late.fits name named (early.fits name named fits)
  noRow := fun name none => late.noRow name (early.noRow name none)
  dirProps := fun free => (late.dirProps fun isOther => free (.inr isOther)).trans
    (early.dirProps fun isTouched => free (.inl isTouched))
  dirPropBase := late.dirPropBase.trans early.dirPropBase
  items := fun name free => (early.items name fun isTouched => free (.inl isTouched)).trans
    (late.items name fun isOther => free (.inr isOther))

theorem Kept.mono (kept : Kept format touched before after) (more : ∀ name, touched name → others name) :
    Kept format others before after :=
  { kept with
    dirProps := fun free => kept.dirProps fun isTouched => free (more thisDirName isTouched)
    items := fun name free => kept.items name fun isTouched => free (more name isTouched) }

/-- The entries of a directory after its file was written. -/
theorem rows_of_othersKept {entries : EntriesHash} (readable : Readable format after.adm.entries entries)
    (othersKept : OthersKept name (dir.listed format) entries) :
    after.Sound format ∧ after.url format = dir.url format ∧
      (∀ other, other ≠ thisDirName → dir.Fits format other → after.Fits format other) ∧
      (∀ other, other ≠ name → after.row format other = dir.row format other) ∧
      after.row format name = rowIn entries name := by
  have isListed : after.listed format = entries := listed_of_readable readable
  rw [WcDir.Sound, WcDir.url, isListed]
  refine ⟨readable, othersKept.url, ?_, ?_, ?_⟩
  · intro other named fits
    rw [WcDir.Fits, isListed]
    exact othersKept.fits other named fits
  · intro other differs
    rw [WcDir.row, isListed, othersKept.rows other differs]
    rfl
  · rw [WcDir.row, isListed]

/-- The entry behind a row. -/
theorem entry_of_row {row : Row} (isRow : dir.row format name = some row) :
    ∃ entry, (dir.listed format).lookup name = some entry ∧ entry.row = row :=
  Option.map_eq_some_iff.mp isRow

/-- A file with the same time, text and properties is modified if it was before. -/
theorem textModifiedP_same {translator : Translator} {modified : Bool} (soundBefore : before.Sound format)
    (checked : textModifiedP translator format name (after.area name) = .ok modified)
    (inner : after.inner.lookup name = before.inner.lookup name)
    (textBase : after.adm.textBase name = before.adm.textBase name)
    (props : after.adm.props name = before.adm.props name)
    (times : (after.row format name).map Row.textTime = (before.row format name).map Row.textTime) :
    textModifiedP translator format name (before.area name) = .ok modified := by
  have untouched : Untouched format (· ≠ name) before after := by
    refine ⟨?_, ?_, ?_, ?_⟩
    · intro other isName
      rw [not_not.mp isName, inner]
    · intro other isName
      rw [not_not.mp isName, textBase]
    · intro other isName
      rw [not_not.mp isName, props]
    · intro other isName now read
      rw [not_not.mp isName]
      refine ⟨before.listed format, soundBefore.read, ?_⟩
      have isListed : after.listed format = now := listed_of_read read
      rw [WcDir.row, WcDir.row, rowIn, rowIn, Option.map_map, Option.map_map, isListed] at times
      exact times
  exact untouched.textModifiedP (fun other => other rfl) checked

end Directories

section Props

variable {path : Bytes} {clock : Clock} {entry : Entry} {files : ItemProps}

/-- A copy of the base is not modified, if its time is recorded or its contents can be read. -/
theorem propsModifiedP_copy {base : Bytes} {time : Int64} {entrytime : Int64}
    (known : entrytime ≠ 0 ∧ time = entrytime ∨ ∃ hash, readPropFile ⟨path, some base⟩ = .ok hash) :
    propsModifiedP path entrytime ⟨some ⟨base, time⟩, some base⟩ = .ok false := by
  show svnWcPropsModifiedP entrytime time ⟨path, some base⟩ ⟨path, some base⟩ = .ok false
  rw [svnWcPropsModifiedP]
  have sameSize : filesizesDifferentP ⟨path, some base⟩ ⟨path, some base⟩ = false :=
    decide_eq_false (not_not.mpr rfl)
  by_cases empty : emptyPropsP ⟨path, some base⟩ = true
  · rw [if_pos empty, empty]
    rfl
  · rw [if_neg empty, if_neg empty, sameSize, if_neg (by decide)]
    by_cases equalTimes : propTimesEqualP entrytime time = true
    · rw [if_pos equalTimes]
    · rw [if_neg equalTimes]
      rcases known with ⟨isSet, same⟩ | ⟨hash, read⟩
      · exfalso
        apply equalTimes
        rw [propTimesEqualP, Bool.and_eq_true]
        exact ⟨decide_eq_true isSet, decide_eq_true same⟩
      · rw [read]
        have noChanges : getLocalPropchanges hash hash = [] := getLocalPropchanges_eq_nil.mpr fun _ => rfl
        show Except.ok (!(getLocalPropchanges hash hash).isEmpty) = _
        rw [noChanges]
        rfl

/-- What is restored of the properties of an item. -/
structure PropsRestored (clock : Clock) (path : Bytes) (entry : Entry) (files : ItemProps)
    (restored : Restored (Option Stamped)) : Prop where
  row : restored.entry.row = { entry.row with propTime := restored.entry.propTime }
  kept : restored.changed = false → restored.part = files.working ∧ restored.entry = entry
  settled : propsModifiedP path restored.entry.propTime ⟨restored.part, files.base⟩ = .ok false
  settledAgain : (∀ base, files.base = some base → ∃ hash, readPropFile ⟨path, some base⟩ = .ok hash) →
    propsModifiedP path entry.propTime ⟨restored.part, files.base⟩ = .ok false

theorem propsModifiedP_gone (entrytime : Int64) : propsModifiedP path entrytime ⟨none, none⟩ = .ok false := rfl

theorem revertProps_spec {restored : Restored (Option Stamped)}
    (reverted : revertProps clock path entry files = .ok restored) :
    PropsRestored clock path entry files restored := by
  obtain ⟨working, base⟩ := files
  obtain ⟨modified, checked, rest⟩ := bind_eq_ok reverted
  cases modified with
  | false =>
      cases rest
      exact ⟨rfl, fun _ => ⟨rfl, rfl⟩, checked, fun _ => checked⟩
  | true =>
      rw [if_pos rfl] at rest
      cases working with
      | none => cases base <;> cases rest
      | some working =>
          cases base with
          | none =>
              cases rest
              exact ⟨rfl, nofun, propsModifiedP_gone _, fun _ => propsModifiedP_gone _⟩
          | some base =>
              cases rest
              refine ⟨rfl, nofun, propsModifiedP_copy (.inl ⟨clock.props_ne_zero path, rfl⟩), ?_⟩
              exact fun reads => propsModifiedP_copy (.inr (reads base rfl))

end Props

/-- The entry is normal again, and it has kept where it was copied from. -/
structure RowReverted (row now : Row) : Prop where
  kind : now.kind = row.kind
  schedule : now.schedule = .normal
  copied : now.copied = row.copied
  copyfromUrl : now.copyfromUrl = row.copyfromUrl
  copyfromRev : now.copyfromRev = row.copyfromRev
  noConflict : ∀ file, ¬ now.Mentions file

section Entries

variable {format : TimeFormat} {path name : Bytes} {dir : WcDir} {entry : Entry}

theorem Reset.apply_nothing {reset : Reset} (nothing : reset.any = false) (new old : Row) :
    reset.apply new old = old := by
  simp only [Reset.any, Bool.or_eq_false_iff] at nothing
  obtain ⟨⟨⟨⟨⟨⟨schedule, propTime⟩, textTime⟩, conflictOld⟩, conflictNew⟩, conflictWrk⟩, prejfile⟩ := nothing
  simp [Reset.apply, schedule, propTime, textTime, conflictOld, conflictNew, conflictWrk, prejfile]

theorem unset_eq_none {α : Type} (value : Option α) : (if value.isSome then none else value) = none := by
  cases value <;> rfl

theorem resetOf_schedule (notAdded : entry.schedule ≠ .add) (propsChanged textChanged : Bool) :
    (if (resetOf entry propsChanged textChanged).schedule then Schedule.normal else entry.schedule) = .normal := by
  show (if decide (entry.schedule = .delete ∨ entry.schedule = .replace) = true then Schedule.normal
    else entry.schedule) = .normal
  cases scheduled : entry.schedule with
  | add => exact absurd scheduled notAdded
  | normal => rfl
  | delete => rfl
  | replace => rfl

theorem resetOf_reverted (notAdded : entry.schedule ≠ .add) (propsChanged textChanged : Bool) (changed : Entry) :
    RowReverted entry.row
      ((resetOf entry propsChanged textChanged).apply (revertedEntry changed).row entry.row) := by
  refine ⟨rfl, resetOf_schedule notAdded propsChanged textChanged, rfl, rfl, rfl, ?_⟩
  rintro file (mentioned | mentioned | mentioned | mentioned)
  · exact nomatch (unset_eq_none entry.conflictOld).symm.trans mentioned
  · exact nomatch (unset_eq_none entry.conflictNew).symm.trans mentioned
  · exact nomatch (unset_eq_none entry.conflictWrk).symm.trans mentioned
  · exact nomatch (unset_eq_none entry.prejfile).symm.trans mentioned

/-- The entry is written only if something is reset. -/
theorem resetEntry_spec {reset : Reset} {changed : Entry} {file : List Atts} (sound : dir.Sound format)
    (found : (dir.listed format).lookup name = some entry)
    (updated : (if reset.any then
      entryModify format path dir.adm.entries (some name) (revertedEntry changed) reset.flags
      else .ok dir.adm.entries) = .ok file) :
    ∃ back, Readable format file back ∧ OthersKept name (dir.listed format) back ∧
      rowIn back name = some (reset.apply (revertedEntry changed).row entry.row) := by
  cases any : reset.any with
  | true =>
      rw [any, if_pos rfl] at updated
      exact @entryModify_rows _ _ _ _ _ (some name) _ _ _ sound found updated
  | false =>
      rw [any] at updated
      cases updated
      refine ⟨dir.listed format, sound, ⟨fun _ _ => rfl, rfl, fun _ _ fits => fits⟩, ?_⟩
      rw [Reset.apply_nothing any, rowIn, found]
      rfl

end Entries

section Conflicts

variable {path : Bytes} {inner after : List (Bytes × Node)}

theorem removeConflictFile_spec {file : Option Bytes} (removed : removeConflictFile path inner file = .ok after)
    (other : Bytes) : after.lookup other = if file = some other then none else inner.lookup other := by
  cases file with
  | none =>
      cases removed
      exact (if_neg nofun).symm
  | some name =>
      obtain ⟨gone, others, -⟩ := removeFileIfPresent_spec removed
      by_cases same : name = other
      · rw [← same, gone, if_pos rfl]
      · rw [others other fun isName => same isName.symm, if_neg fun isName => same (Option.some.inj isName)]

/-- The files of the conflict are gone, and all others stay. -/
theorem removeConflictFiles_spec {entry : Entry} (removed : removeConflictFiles path entry inner = .ok after)
    (other : Bytes) :
    (entry.row.Mentions other → after.lookup other = none) ∧
      (¬ entry.row.Mentions other → after.lookup other = inner.lookup other) := by
  obtain ⟨first, removedOld, rest⟩ := bind_eq_ok removed
  obtain ⟨second, removedNew, rest⟩ := bind_eq_ok rest
  obtain ⟨third, removedWrk, removedPrej⟩ := bind_eq_ok rest
  rw [removeConflictFile_spec removedPrej, removeConflictFile_spec removedWrk, removeConflictFile_spec removedNew,
    removeConflictFile_spec removedOld]
  constructor
  · rintro (mentioned | mentioned | mentioned | mentioned)
    · rw [if_pos (show entry.conflictOld = some other from mentioned), ite_self, ite_self, ite_self]
    · rw [if_pos (show entry.conflictNew = some other from mentioned), ite_self, ite_self]
    · rw [if_pos (show entry.conflictWrk = some other from mentioned), ite_self]
    · rw [if_pos (show entry.prejfile = some other from mentioned)]
  · intro free
    have isOld : entry.conflictOld ≠ some other := fun mentioned => free (.inl mentioned)
    have isNew : entry.conflictNew ≠ some other := fun mentioned => free (.inr (.inl mentioned))
    have isWrk : entry.conflictWrk ≠ some other := fun mentioned => free (.inr (.inr (.inl mentioned)))
    have isPrej : entry.prejfile ≠ some other := fun mentioned => free (.inr (.inr (.inr mentioned)))
    rw [if_neg isPrej, if_neg isWrk, if_neg isNew, if_neg isOld]

theorem noConflict_fields {entry : Entry} (noConflict : ∀ file, ¬ entry.row.Mentions file) :
    entry.conflictOld = none ∧ entry.conflictNew = none ∧ entry.conflictWrk = none ∧ entry.prejfile = none :=
  ⟨Option.eq_none_iff_forall_ne_some.mpr fun file mentioned => noConflict file (.inl mentioned),
    Option.eq_none_iff_forall_ne_some.mpr fun file mentioned => noConflict file (.inr (.inl mentioned)),
    Option.eq_none_iff_forall_ne_some.mpr fun file mentioned => noConflict file (.inr (.inr (.inl mentioned))),
    Option.eq_none_iff_forall_ne_some.mpr fun file mentioned => noConflict file (.inr (.inr (.inr mentioned)))⟩

theorem removeConflictFiles_nothing {entry : Entry} (noConflict : ∀ file, ¬ entry.row.Mentions file) :
    removeConflictFiles path entry inner = .ok inner := by
  obtain ⟨noOld, noNew, noWrk, noPrej⟩ := noConflict_fields noConflict
  rw [removeConflictFiles, noOld, noNew, noWrk, noPrej]
  rfl

end Conflicts

/-- A directory after its entries, the properties of one name, and its files were written. -/
def WcDir.rewritten (dir : WcDir) (name : Bytes) (entries : List Atts) (props : Option Stamped)
    (inner : List (Bytes × Node)) : WcDir :=
  ⟨{ dir.adm with entries := entries, props := Function.update dir.adm.props name props }, inner⟩

/-- What is restored of the text of a file. -/
structure TextRestored (translator : Translator) (format : TimeFormat) (clock : Clock) (path : Bytes)
    (dir : WcDir) (name : Bytes) (entry : Entry) (restored : Restored WcDir) : Prop where
  row : restored.entry.row = { entry.row with textTime := restored.entry.textTime }
  adm : restored.part.adm = dir.adm
  others : ∀ other, other ≠ name → restored.part.inner.lookup other = dir.inner.lookup other
  kept : restored.changed = false → restored.part = dir ∧ restored.entry = entry ∧
    textModifiedP translator format name (dir.area name) = .ok false ∧ dir.inner.lookup name ≠ none
  written : restored.changed = true →
    ∃ contents, restored.part.inner.lookup name = some (.file ⟨contents, restored.entry.textTime⟩) ∧
      restored.entry.textTime ≠ 0

/-- A file after it was reverted. -/
structure FileReverted (translator : Translator) (format : TimeFormat) (path : Bytes) (row : Row)
    (before after : WcDir) (name : Bytes) : Prop where
  kept : Kept format (fun other => other = name ∨ row.Mentions other) before after
  textBase : after.adm.textBase name = before.adm.textBase name
  propBase : after.adm.propBase name = before.adm.propBase name
  isRow : ∃ now, after.row format name = some now ∧ RowReverted row now ∧
    propsModifiedP (addComponent path name) now.propTime (itemProps after name) = .ok false
  working : ∃ file, after.inner.lookup name = some (.file file)
  text : textModifiedP translator format name (after.area name) = .ok false
  conflicts : ∀ file, row.Mentions file → after.inner.lookup file = none

section Files

variable {translator : Translator} {format : TimeFormat} {clock : Clock} {path name : Bytes}
  {dir after : WcDir} {row entry : Entry}

theorem revertText_spec {restored : Restored WcDir}
    (reverted : revertText translator format clock path dir name row entry = .ok restored) :
    TextRestored translator format clock path dir name entry restored := by
  obtain ⟨modified, checked, rest⟩ := bind_eq_ok reverted
  split at rest
  case isTrue =>
    split at rest
    case h_1 => cases rest
    case h_2 base isBase =>
      obtain ⟨contents, expanded, done⟩ := bind_eq_ok rest
      cases done
      refine ⟨rfl, rfl, fun other differs => ?_, nofun, fun _ => ⟨contents, ?_, clock.text_ne_zero _⟩⟩
      · rw [lookup_placed, if_neg differs]
      · rw [lookup_placed, if_pos rfl]
  case isFalse same =>
    cases rest
    rw [not_or] at same
    rw [Bool.eq_false_iff.mpr same.1] at checked
    refine ⟨rfl, rfl, fun _ _ => rfl, fun _ => ⟨rfl, rfl, checked, fun absent => same.2 ?_⟩, nofun⟩
    rw [absent]
    rfl

/-- A file with the recorded time is not modified. -/
theorem textModifiedP_recorded {contents : Bytes} {time : Int64} {now : Row} (sound : dir.Sound format)
    (present : dir.inner.lookup name = some (.file ⟨contents, time⟩)) (isRow : dir.row format name = some now)
    (recorded : now.textTime = time) (isSet : time ≠ 0) :
    textModifiedP translator format name (dir.area name) = .ok false := by
  obtain ⟨entry, found, rfl⟩ := entry_of_row isRow
  have working : (dir.area name).working = some ⟨contents, time⟩ := by
    show dir.working name = _
    rw [WcDir.working, present]
  have equal : timestampsEqualP format name ⟨contents, time⟩ (dir.area name) = .ok true := by
    refine timestampsEqualP_eq_ok_iff.mpr ⟨dir.listed format, sound.read, time, ?_, ?_⟩
    · rw [found, Option.map_some]
      exact congrArg some recorded
    · exact (decide_eq_true ⟨isSet, format.fromNts_toNts time⟩).symm
  rw [textModifiedP.eq_def, working]
  show (timestampsEqualP format name ⟨contents, time⟩ (dir.area name) >>= _) = _
  rw [equal, ok_bind]
  rfl

theorem withProps_file (noBelow : dir.below name = none) (working : Option Stamped) :
    dir.withProps name working = dir.rewritten name dir.adm.entries working dir.inner := by
  rw [WcDir.withProps, noBelow]
  rfl

theorem below_eq_none (noDir : ∀ adm inner, dir.inner.lookup name ≠ some (.dir adm inner)) :
    dir.below name = none := by
  rw [WcDir.below]
  split
  case h_1 own inner isDir => exact absurd isDir (noDir _ _)
  case h_2 => rfl

/-- The parts of the reversion of a file. -/
structure FileParts (translator : Translator) (format : TimeFormat) (clock : Clock) (path : Bytes) (dir : WcDir)
    (name : Bytes) (entry : Entry) (props : Restored (Option Stamped)) (restored : Restored WcDir)
    (inner : List (Bytes × Node)) (file : List Atts) : Prop where
  ofProps : PropsRestored clock (addComponent path name) entry (itemProps dir name) props
  ofText : TextRestored translator format clock path
    (dir.rewritten name dir.adm.entries props.part dir.inner) name props.entry restored
  conflicts : ∀ other, (entry.row.Mentions other → inner.lookup other = none) ∧
    (¬ entry.row.Mentions other → inner.lookup other = restored.part.inner.lookup other)
  entries : (if (resetOf entry props.changed restored.changed).any then entryModify format path dir.adm.entries
      (some name) (revertedEntry restored.entry) (resetOf entry props.changed restored.changed).flags
    else .ok dir.adm.entries) = .ok file

theorem revertFile_parts (noBelow : dir.below name = none)
    (reverted : revertFile translator format clock path dir name entry = .ok after) :
    ∃ props restored inner file, after = dir.rewritten name file props.part inner ∧
      FileParts translator format clock path dir name entry props restored inner file := by
  obtain ⟨props, propsReverted, rest⟩ := bind_eq_ok reverted
  obtain ⟨restored, textReverted, rest⟩ := bind_eq_ok rest
  obtain ⟨inner, removed, rest⟩ := bind_eq_ok rest
  rw [withProps_file noBelow] at textReverted
  have isText := revertText_spec textReverted
  have isProps := revertProps_spec propsReverted
  have isInner := removeConflictFiles_spec removed
  refine ⟨props, restored, inner, ?_⟩
  split at rest
  case isTrue any =>
    obtain ⟨file, modified, done⟩ := bind_eq_ok rest
    cases done
    refine ⟨file, ?_, ⟨isProps, isText, isInner, by rw [if_pos any, modified]⟩⟩
    rw [WcDir.withEntries, isText.adm]
    rfl
  case isFalse nothing =>
    cases rest
    refine ⟨dir.adm.entries, ?_, ⟨isProps, isText, isInner, by rw [if_neg nothing]⟩⟩
    show WcDir.mk restored.part.adm inner = _
    rw [isText.adm]
    rfl

section Parts

variable {props : Restored (Option Stamped)} {restored : Restored WcDir} {inner : List (Bytes × Node)}
  {file : List Atts}

theorem FileParts.working
    (parts : FileParts translator format clock path dir name entry props restored inner file)
    (noDir : ∀ adm inner, dir.inner.lookup name ≠ some (.dir adm inner)) (apart : ¬ entry.row.Mentions name) :
    ∃ working, inner.lookup name = some (.file working) := by
  rw [(parts.conflicts name).2 apart]
  cases changed : restored.changed with
  | true =>
      obtain ⟨contents, present, _⟩ := parts.ofText.written changed
      exact ⟨_, present⟩
  | false =>
      obtain ⟨same, -, -, present⟩ := parts.ofText.kept changed
      rw [same]
      obtain ⟨node, isNode⟩ := Option.ne_none_iff_exists'.mp present
      cases node with
      | file working => exact ⟨working, isNode⟩
      | dir adm inner => exact absurd isNode (noDir adm inner)

theorem FileParts.settled
    (parts : FileParts translator format clock path dir name entry props restored inner file)
    (noBelow : dir.below name = none) :
    propsModifiedP (addComponent path name)
      ((resetOf entry props.changed restored.changed).apply (revertedEntry restored.entry).row entry.row).propTime
      ⟨props.part, dir.adm.propBase name⟩ = .ok false := by
  have sameTime : restored.entry.propTime = props.entry.propTime := congrArg Row.propTime parts.ofText.row
  have settled := parts.ofProps.settled
  rw [itemProps, noBelow] at settled
  show propsModifiedP _ (if props.changed = true then restored.entry.propTime else entry.propTime) _ = _
  rw [sameTime]
  cases changed : props.changed with
  | true => exact settled
  | false =>
      rw [(parts.ofProps.kept changed).2] at settled
      exact settled

theorem FileParts.unmodified
    (parts : FileParts translator format clock path dir name entry props restored inner file)
    (apart : ¬ entry.row.Mentions name) (found : (dir.listed format).lookup name = some entry)
    (soundAfter : (dir.rewritten name file props.part inner).Sound format)
    (isRow : (dir.rewritten name file props.part inner).row format name =
      some ((resetOf entry props.changed restored.changed).apply (revertedEntry restored.entry).row entry.row)) :
    textModifiedP translator format name ((dir.rewritten name file props.part inner).area name) = .ok false := by
  have sameInner : inner.lookup name = restored.part.inner.lookup name := (parts.conflicts name).2 apart
  cases changed : restored.changed with
  | true =>
      obtain ⟨contents, present, isSet⟩ := parts.ofText.written changed
      rw [← sameInner] at present
      rw [changed] at isRow
      exact textModifiedP_recorded soundAfter present isRow rfl isSet
  | false =>
      obtain ⟨same, -, unmodified, -⟩ := parts.ofText.kept changed
      rw [changed] at isRow
      refine textModifiedP_same soundAfter unmodified ?_ rfl rfl ?_
      · show dir.inner.lookup name = inner.lookup name
        rw [sameInner, same]
        rfl
      · have isBefore : (dir.rewritten name dir.adm.entries props.part dir.inner).row format name =
            some entry.row := by
          show dir.row format name = _
          rw [WcDir.row, rowIn, found]
          rfl
        rw [isRow, isBefore]
        rfl

end Parts

/-- The case of a file. Nothing but the file and the files of its conflict is touched. -/
theorem revertFile_spec (sound : dir.Sound format) (found : (dir.listed format).lookup name = some entry)
    (notAdded : entry.schedule ≠ .add) (noDir : ∀ adm inner, dir.inner.lookup name ≠ some (.dir adm inner))
    (apart : ¬ entry.row.Mentions name)
    (reverted : revertFile translator format clock path dir name entry = .ok after) :
    FileReverted translator format path entry.row dir after name := by
  have noBelow := below_eq_none noDir
  obtain ⟨props, restored, inner, file, rfl, parts⟩ := revertFile_parts noBelow reverted
  obtain ⟨back, readable, othersKept, isNow⟩ := resetEntry_spec sound found parts.entries
  obtain ⟨soundAfter, sameUrl, fits, rows, isRow⟩ :=
    @rows_of_othersKept _ _ (dir.rewritten name file props.part inner) _ _ readable othersKept
  rw [isNow] at isRow
  have working := parts.working noDir apart
  refine ⟨⟨soundAfter, sameUrl, fits, ?_, fun _ => rfl, rfl, ?_⟩, rfl, rfl,
    ⟨_, isRow, resetOf_reverted notAdded _ _ _, ?_⟩, working, parts.unmodified apart found soundAfter isRow, fun other => (parts.conflicts other).1⟩
  · intro other absent
    have differs : other ≠ name := by
      rintro rfl
      rw [WcDir.row, rowIn, found] at absent
      cases absent
    rw [rows other differs, absent]
  · intro other free
    rw [not_or] at free
    refine ⟨?_, Function.update_of_ne free.1 _ _, rfl, rfl, rows other free.1⟩
    show inner.lookup other = dir.inner.lookup other
    rw [(parts.conflicts other).2 free.2, parts.ofText.others other free.1]
    rfl
  · have noBelowAfter : (dir.rewritten name file props.part inner).below name = none := by
      apply below_eq_none
      intro adm below isDir
      obtain ⟨file, present⟩ := working
      cases present.symm.trans isDir
    rw [itemProps, noBelowAfter]
    show propsModifiedP _ _ ⟨Function.update dir.adm.props name props.part name, dir.adm.propBase name⟩ = _
    rw [Function.update_self]
    exact parts.settled noBelow

/-- A file that is as it should be, under an entry that says so. -/
structure FileStable (translator : Translator) (format : TimeFormat) (path : Bytes) (dir : WcDir) (name : Bytes)
    (now : Row) : Prop where
  schedule : now.schedule = .normal
  noConflict : ∀ file, ¬ now.Mentions file
  working : ∃ file, dir.inner.lookup name = some (.file file)
  text : textModifiedP translator format name (dir.area name) = .ok false
  props : propsModifiedP (addComponent path name) now.propTime (itemProps dir name) = .ok false

theorem FileStable.noDir {now : Row} (stable : FileStable translator format path dir name now) (adm : Option Adm)
    (inner : List (Bytes × Node)) : dir.inner.lookup name ≠ some (.dir adm inner) := by
  obtain ⟨file, present⟩ := stable.working
  intro isDir
  exact nomatch present.symm.trans isDir

theorem revertProps_unmodified {files : ItemProps}
    (unmodified : propsModifiedP path entry.propTime files = .ok false) :
    revertProps clock path entry files = .ok ⟨entry, false, files.working⟩ := by
  rw [revertProps, unmodified, ok_bind]
  rfl

theorem resetOf_nothing (schedule : entry.schedule = .normal) (noConflict : ∀ file, ¬ entry.row.Mentions file) :
    (resetOf entry false false).any = false := by
  obtain ⟨noOld, noNew, noWrk, noPrej⟩ := noConflict_fields noConflict
  rw [Reset.any, resetOf, schedule, noOld, noNew, noWrk, noPrej]
  rfl

/-- Nothing is done for a file that is as it should be. -/
theorem revertFile_stable (stable : FileStable translator format path dir name entry.row) :
    revertFile translator format clock path dir name entry = .ok dir := by
  have noBelow := below_eq_none stable.noDir
  have same : dir.withProps name (itemProps dir name).working = dir := by
    rw [withProps_file noBelow, itemProps, noBelow, WcDir.rewritten, Function.update_eq_self]
  have present : ¬ ((false : Bool) = true ∨ (dir.inner.lookup name).isNone = true) := by
    obtain ⟨file, present⟩ := stable.working
    rw [present]
    exact fun modified => modified.elim nofun nofun
  have text : revertText translator format clock path dir name entry entry = .ok ⟨entry, false, dir⟩ := by
    rw [revertText, stable.text, ok_bind, if_neg present]
  rw [revertFile, revertProps_unmodified stable.props, ok_bind, same, text, ok_bind,
    removeConflictFiles_nothing stable.noConflict, ok_bind,
    resetOf_nothing stable.schedule stable.noConflict]
  rfl

end Files

end Subversion.Wc
