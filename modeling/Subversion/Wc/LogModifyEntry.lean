/-
This file models the log command that modifies an entry, and says when it leaves the attributes that are given.
-/

import Subversion.Wc.CommittedText
import Subversion.Wc.Scheduling

namespace Subversion.Wc

open Delta Subr

inductive FileType where
  | regular
  | directory
  | other
  deriving DecidableEq

/-- The answer of the system about a path. -/
inductive Stat where
  | absent
  | failed
  | found (type : FileType) (mtime ctime : Int64)

/-- The paths on the disk, and the directories of which the administrative readme can be opened and
closed. -/
structure Disk where
  stat : Bytes → Stat
  opensReadme : Bytes → Bool
  closesReadme : Bytes → Bool

section Disk

variable (disk : Disk)

def checkPath (path : Bytes) : Except SvnError NodeKind :=
  match disk.stat (if path = [] then [46] else path) with
  | .absent => .ok .none
  | .failed => .error (aprError ("svn_io_check_path: problem checking path \"" ++
      text (if path = [] then [46] else path) ++ "\""))
  | .found .regular _ _ => .ok .file
  | .found .directory _ _ => .ok .dir
  | .found .other _ _ => .ok .unknown

def fileAffectedTime (path : Bytes) : Except SvnError Int64 :=
  match disk.stat path with
  | .found _ mtime ctime => .ok (if mtime > ctime then mtime else ctime)
  | .absent | .failed => .error (aprError ("svn_io_file_affected_time: cannot stat " ++ text path))

def checkWc (path : Bytes) : Except SvnError Bool :=
  match checkPath disk path with
  | .error error => .error error
  | .ok .none => .error (aprError ("svn_wc_check_wc: " ++ text path ++ " does not exist"))
  | .ok .dir =>
      if disk.opensReadme path = false then .ok false
      else if disk.closesReadme path = true then .ok true
      else .error (aprError (text path))
  | .ok .file | .ok .unknown => .ok false

def admSubdir : Bytes := [46, 115, 118, 110]

def admProps : Bytes := [112, 114, 111, 112, 115]

def admDirProps : Bytes := [100, 105, 114, 45, 112, 114, 111, 112, 115]

/-- Empty components are left out. -/
def extendWithAdmName (path : Bytes) (components : List Bytes) : Bytes :=
  (components.filter (· ≠ [])).foldl addComponent (addComponent path admSubdir)

/-- The file of the properties of a path. -/
def propPath (path : Bytes) : Except SvnError Bytes := do
  let kind ← checkPath disk path
  let isWc ← if kind = .dir then checkWc disk path else .ok false
  if isWc then return extendWithAdmName path [admDirProps]
  else
    let parent := if isEmptyPath (splitPath path).1 then [46] else (splitPath path).1
    if ← checkWc disk parent then return extendWithAdmName parent [admProps, (splitPath path).2]
    else .error ⟨.wcObstructedUpdate, "svn_wc__prop_path: " ++ text parent ++
      " is not a working copy directory"⟩

end Disk

section Command

variable (format : TimeFormat) (disk : Disk)

/-- The path of the command is extended by the name only if the time of the text is asked for. -/
def timedPath (path name : Bytes) (atts : Atts) : Bytes :=
  if atts.textTime = some timestampWc ∧ name ≠ thisDirName then addComponent path name else path

def modifyTextTime (tfile : Bytes) (atts : Atts) (entry : Entry) : Except SvnError Entry :=
  if atts.textTime = some timestampWc then
    match checkPath disk tfile, fileAffectedTime disk tfile with
    | .error _, _ => .error (badAdmLog ("error checking path `" ++ text tfile ++ "'"))
    | _, .error _ => .error (badAdmLog ("error getting file affected time on `" ++ text tfile ++ "'"))
    | _, .ok textTime => .ok { entry with textTime := textTime }
  else .ok entry

/-- The file of the properties is checked, and the time is that of the other file. A failure to name
the file makes the log fail. -/
def modifyPropTime (path tfile : Bytes) (atts : Atts) (entry : Entry) : Except SvnError Entry :=
  if atts.propTime = some timestampWc then
    match propPath disk tfile with
    | .error _ => .error (badAdmLog ("in directory " ++ text path))
    | .ok pfile =>
        match checkPath disk pfile, fileAffectedTime disk tfile with
        | .error _, _ => .error (badAdmLog ("error checking path `" ++ text pfile ++ "'"))
        | _, .error _ =>
            .error (badAdmLog ("error getting file affected time on `" ++ text pfile ++ "'"))
        | _, .ok propTime => .ok { entry with propTime := propTime }
  else .ok entry

def logDoModifyEntry (path name : Bytes) (file : List Atts) (atts : Atts) :
    Except SvnError (List Atts) := do
  let given ← attsToEntry format atts
  let entry ← modifyTextTime disk (timedPath path name atts) atts given.1
  let entry ← modifyPropTime disk path (timedPath path name atts) atts entry
  match entryModify format path file (some name) entry given.2 with
  | .ok written => return written
  | .error _ => .error (badAdmLog ("error merge_syncing entry `" ++ text name ++ "'"))

end Command

section Requirement

variable (format : TimeFormat) (disk : Disk)

def entryPath (path name : Bytes) : Bytes :=
  if name = thisDirName then path else addComponent path name

def propFileTime (path : Bytes) : Except SvnError Int64 := do
  fileAffectedTime disk (← propPath disk path)

/-- The flags of all the attributes that are given. -/
def givenFlags (atts : Atts) : ModifyFlags where
  revision := atts.revision.isSome
  url := atts.url.isSome
  kind := atts.kind.isSome
  textTime := atts.textTime.isSome
  propTime := atts.propTime.isSome
  schedule := atts.schedule.isSome
  copied := atts.copied.isSome
  copyfromUrl := atts.copyfromUrl.isSome
  copyfromRev := atts.copyfromRev.isSome
  conflictOld := atts.conflictOld.isSome
  conflictNew := atts.conflictNew.isSome
  conflictWrk := atts.conflictWrk.isSome
  prejfile := atts.prejfile.isSome
  cmtRev := atts.cmtRev.isSome
  cmtDate := atts.cmtDate.isSome
  cmtAuthor := atts.cmtAuthor.isSome
  force := false

/-- The values that are given. The magic word stands for the time of a file. -/
structure GivenValues (path name : Bytes) (atts : Atts) (values : Entry) : Prop where
  converted : ∃ entry flags, attsToEntry format atts = .ok (entry, flags) ∧
    values = { entry with textTime := values.textTime, propTime := values.propTime }
  textTime : if atts.textTime = some timestampWc then
      fileAffectedTime disk (entryPath path name) = .ok values.textTime
    else values.textTime = attsToTime format atts.textTime
  propTime : if atts.propTime = some timestampWc then
      propFileTime disk (entryPath path name) = .ok values.propTime
    else values.propTime = attsToTime format atts.propTime

/-- The entry has the given values, and all else is as it was. -/
def LeavesGiven (path name : Bytes) (file : List Atts) (atts : Atts) (written : List Atts) : Prop :=
  ∃ values before after now, GivenValues format disk path name atts values ∧
    entriesRead format file = .ok before ∧ entriesRead format written = .ok after ∧
    after.lookup name = some now ∧ mergeFields (givenFlags atts) values now = now ∧
    (∀ current, before.lookup name = some current → mergeFields (givenFlags atts) now current = now) ∧
    ∀ other, other ≠ name → after.lookup other = before.lookup other

end Requirement

section Condition

/-- The revision of an entry comes back from the file as it is. -/
def RevisionSurvives (thisDir entry : Entry) : Prop :=
  match entry.kind with
  | .file | .unknown => isValidRevnum entry.revision
  | .none => UnsetOrValid entry.revision ∧ entry.revision ≠ thisDir.revision
  | .dir => entry.revision = invalidRevnum

/-- The url of an entry comes back from the file as it is. -/
def UrlSurvives (thisDir : Entry) (name : Bytes) (entry : Entry) : Prop :=
  match entry.kind with
  | .file | .unknown =>
      if entry.schedule = .add ∨ entry.schedule = .replace then
        entry.url ≠ thisDir.url.map (addComponent · name)
      else entry.url ≠ none
  | .none => entry.url ≠ thisDir.url.map (addComponent · name)
  | .dir => entry.url = none

/-- A schedule that is asked for takes effect as it is. -/
def ScheduleSticks (current requested : Schedule) : Prop :=
  requested = current ∨ current ≠ .add ∧ (requested = .delete ∨ requested = .replace)

def currentEntry (before : EntriesHash) (name : Bytes) : Entry :=
  (before.lookup name).getD (allocEntry name)

/-- The entry as it is asked for. The given entry has no time for the magic word. -/
def requestedEntry (before : EntriesHash) (name : Bytes) (atts : Atts) (given : Entry) : Entry :=
  mergeFields (givenFlags atts) given (currentEntry before name)

def requestedDir (before : EntriesHash) (name : Bytes) (atts : Atts) (given : Entry) : Entry :=
  if name = thisDirName then requestedEntry before name atts given else currentEntry before thisDirName

/-- The source of a copy is not new, the schedule takes effect, and what is asked for comes back from the
file. -/
structure EntrySticks (before : EntriesHash) (name : Bytes) (atts : Atts) (given : Entry) : Prop where
  copyfromUrl : (requestedEntry before name atts given).copyfromUrl = (currentEntry before name).copyfromUrl
  copyfromRev : (requestedEntry before name atts given).copyfromRev =
    storedRev (currentEntry before name).copyfromRev
  schedule : ∀ current, before.lookup name = some current →
    ScheduleSticks current.schedule (requestedEntry before name atts given).schedule
  kind : (requestedEntry before name atts given).kind ≠ .unknown
  cmtRev : UnsetOrValid (requestedEntry before name atts given).cmtRev
  revision : name ≠ thisDirName → before.lookup name ≠ none ∨ atts.revision ≠ none →
    RevisionSurvives (requestedDir before name atts given) (requestedEntry before name atts given)
  url : name ≠ thisDirName → before.lookup name ≠ none ∨ atts.url ≠ none →
    UrlSurvives (requestedDir before name atts given) name (requestedEntry before name atts given)

/-- The time of the properties is that of the file that is looked at, and every other entry comes back
from the file, too. -/
structure Sticks (disk : Disk) (path name : Bytes) (atts : Atts) (before : EntriesHash) (given : Entry) :
    Prop where
  propTime : atts.propTime = some timestampWc →
    propFileTime disk (entryPath path name) = fileAffectedTime disk (timedPath path name atts)
  entry : EntrySticks before name atts given
  directory : isValidRevnum (requestedDir before name atts given).revision
  others : ∀ other entry, other ≠ name → before.lookup other = some entry →
    EntrySurvives (requestedDir before name atts given) other entry ∧ clearSubdir other entry = entry

end Condition

section Stored

variable {thisDir entry : Entry} {name : Bytes}

/-- What the file does to the fields of an entry. -/
theorem resolvedEntry_fields (thisDir : Entry) (name : Bytes) (entry : Entry) :
    resolvedEntry thisDir name entry =
      { entry with
        name := name
        revision := (resolvedEntry thisDir name entry).revision
        url := (resolvedEntry thisDir name entry).url
        kind := storedKind entry.kind
        copyfromRev := storedRev entry.copyfromRev
        cmtRev := storedRev entry.cmtRev } := by
  rw [resolvedEntry, fillDefaults]
  split
  · rfl
  · split <;> rfl

/-- The directory's own entry counts by its revision and its url. -/
theorem resolvedEntry_congr {other : Entry} (revision : thisDir.revision = other.revision)
    (url : thisDir.url = other.url) (name : Bytes) (entry : Entry) :
    resolvedEntry thisDir name entry = resolvedEntry other name entry := by
  simp only [resolvedEntry, fillDefaults, takeFromEntry, storedUnder, storedEntry, writtenRevision,
    writtenUrl, revision, url, if_true]

theorem resolvedEntry_revision_iff (below : name ≠ thisDirName) (known : entry.kind ≠ .unknown)
    (hasRevision : isValidRevnum thisDir.revision) :
    (resolvedEntry thisDir name entry).revision = entry.revision ↔ RevisionSurvives thisDir entry := by
  have revision := storedUnder_thisDir_revision hasRevision
  rw [resolvedEntry, fillDefaults]
  generalize storedUnder thisDir thisDirName thisDir = default at revision
  cases kind : entry.kind with
  | unknown => exact absurd kind known
  | dir =>
      simp [RevisionSurvives, storedUnder, storedEntry, writtenRevision, below, kind, storedKind, attsToRev,
        eq_comm]
  | none =>
      simp [RevisionSurvives, storedUnder, storedEntry, writtenRevision, below, kind, storedKind,
        own_revision_eq_iff hasRevision]
  | file =>
      simp [RevisionSurvives, storedUnder, storedEntry, writtenRevision, below, kind, storedKind,
        takeFromEntry, revision, inherited_revision_eq_iff hasRevision]

theorem resolvedEntry_url_iff (below : name ≠ thisDirName) (known : entry.kind ≠ .unknown)
    (hasUrl : thisDir.url ≠ none) :
    (resolvedEntry thisDir name entry).url = entry.url ↔ UrlSurvives thisDir name entry := by
  have hasDefault : thisDir.url.map (addComponent · name) ≠ none := by simpa using hasUrl
  have url := @storedUnder_thisDir_url thisDir
  rw [resolvedEntry, fillDefaults]
  generalize storedUnder thisDir thisDirName thisDir = default at url
  cases kind : entry.kind with
  | unknown => exact absurd kind known
  | dir =>
      simp [UrlSurvives, storedUnder, storedEntry, writtenUrl, below, kind, storedKind, eq_comm]
  | none =>
      simp [UrlSurvives, storedUnder, storedEntry, writtenUrl, below, kind, storedKind,
        own_url_eq_iff hasDefault]
  | file =>
      simp [UrlSurvives, storedUnder, storedEntry, writtenUrl, below, kind, storedKind, takeFromEntry,
        inheritsUrl, url, inherited_url_eq_iff hasDefault]

theorem resolvedEntry_revision (below : name ≠ thisDirName) (hasRevision : isValidRevnum thisDir.revision) :
    (resolvedEntry thisDir name entry).revision =
      if entry.kind = .dir then invalidRevnum
      else if entry.revision = thisDir.revision ∨ storedRev entry.revision = invalidRevnum then
        if entry.kind = .none then invalidRevnum else thisDir.revision
      else storedRev entry.revision := by
  have revision := storedUnder_thisDir_revision hasRevision
  have leftOut : attsToRev none = invalidRevnum := rfl
  rw [resolvedEntry, fillDefaults, if_neg below]
  generalize storedUnder thisDir thisDirName thisDir = default at revision
  by_cases same : entry.revision = thisDir.revision <;>
    by_cases unset : storedRev entry.revision = invalidRevnum <;> cases kind : entry.kind <;>
    simp [storedUnder, storedEntry, writtenRevision, below, kind, storedKind, takeFromEntry, revision,
      attsToRev_revAtt, same, unset, leftOut]

theorem resolvedEntry_url (below : name ≠ thisDirName) :
    (resolvedEntry thisDir name entry).url =
      if entry.kind = .dir then none
      else if entry.url = thisDir.url.map (addComponent · name) ∨ entry.url = none then
        if entry.kind = .none ∨ entry.schedule = .add ∨ entry.schedule = .replace then none
        else thisDir.url.map (addComponent · name)
      else entry.url := by
  have url := @storedUnder_thisDir_url thisDir
  rw [resolvedEntry, fillDefaults, if_neg below]
  generalize storedUnder thisDir thisDirName thisDir = default at url
  by_cases same : entry.url = thisDir.url.map (addComponent · name) <;>
    by_cases unset : entry.url = none <;> cases kind : entry.kind <;>
    simp [storedUnder, storedEntry, writtenUrl, below, kind, storedKind, takeFromEntry, url, inheritsUrl,
      same, unset]
  all_goals split_ifs <;> tauto

/-- An entry comes back unchanged if it survives, and if it carries nothing that a subdirectory loses. -/
theorem resolvedEntry_eq_self_iff (hasUrl : thisDir.url ≠ none)
    (hasRevision : isValidRevnum thisDir.revision) (named : entry.name = name)
    (own : name = thisDirName → entry = thisDir) (noDot : name ≠ thisDirName → name ≠ [46]) :
    resolvedEntry thisDir name entry = entry ↔
      EntrySurvives thisDir name entry ∧ clearSubdir name entry = entry := by
  rw [← resolvedEntry_eq_iff hasUrl hasRevision named own noDot]
  constructor
  · intro same
    have clear : clearSubdir name entry = entry := by
      rw [clearSubdir]
      split
      · next subdir =>
          have known : entry.kind ≠ .unknown := by rw [subdir.2]; decide
          have revision := (resolvedEntry_revision_iff subdir.1 known hasRevision).mp (by rw [same])
          have url := (resolvedEntry_url_iff subdir.1 known hasUrl).mp (by rw [same])
          simp only [RevisionSurvives, UrlSurvives, subdir.2] at revision url
          rw [← revision, ← url]
      · rfl
    exact ⟨same.trans clear.symm, clear⟩
  · rintro ⟨same, clear⟩
    exact same.trans clear

/-- What is absorbed when the entry is folded is left out by the file and filled in by the reader. -/
theorem resolvedEntry_takeFromEntry (below : name ≠ thisDirName) (named : entry.name = name)
    (hasRevision : isValidRevnum thisDir.revision) :
    resolvedEntry thisDir name (takeFromEntry thisDir entry) = resolvedEntry thisDir name entry := by
  have revision : (resolvedEntry thisDir name (takeFromEntry thisDir entry)).revision =
      (resolvedEntry thisDir name entry).revision := by
    rw [resolvedEntry_revision below hasRevision, resolvedEntry_revision below hasRevision]
    by_cases subdir : entry.kind = .dir
    · simp [takeFromEntry, subdir]
    · by_cases missing : entry.revision = invalidRevnum
      · have unset : storedRev invalidRevnum = invalidRevnum := by decide
        simp [takeFromEntry, subdir, missing, unset]
      · simp [takeFromEntry, missing]
  have url : (resolvedEntry thisDir name (takeFromEntry thisDir entry)).url =
      (resolvedEntry thisDir name entry).url := by
    rw [resolvedEntry_url below, resolvedEntry_url below]
    by_cases subdir : entry.kind = .dir
    · simp [takeFromEntry, subdir]
    · by_cases inherits : inheritsUrl entry
      · simp [takeFromEntry, subdir, inherits, named, inherits.1]
      · simp [takeFromEntry, inherits]
  rw [resolvedEntry_fields, revision, url, resolvedEntry_fields thisDir name entry]
  rfl

end Stored

section MergedInto

variable {entries modified : EntriesHash} {name : Bytes} {entry : Entry} {flags : ModifyFlags}

theorem effectiveSchedule_eq_iff {current requested : Schedule} (addable : current = .normal → requested ≠ .add) :
    effectiveSchedule current requested = requested ↔ ScheduleSticks current requested := by
  cases current <;> cases requested <;> simp [effectiveSchedule, ScheduleSticks] at addable ⊢

/-- The entry that was folded, with the schedule that results from the request. -/
structure MergedInto (entries : EntriesHash) (name : Bytes) (flags : ModifyFlags) (entry merged now : Entry) :
    Prop where
  scheduled : merged = { mergedEntry entries name flags entry with schedule := merged.schedule }
  fresh : entries.lookup name = none →
    merged.schedule = (mergedEntry entries name flags entry).schedule
  known : ∀ current, entries.lookup name = some current →
    (merged.schedule = (mergedEntry entries name flags entry).schedule ↔
      ScheduleSticks current.schedule (mergedEntry entries name flags entry).schedule)
  absorbed : now = merged ∨ ∃ default, foldDefault entries name merged = some default ∧
    now = takeFromEntry default merged

/-- A modification that does not force its schedule removes an entry that was to be added, or it puts
the merged entry into the hash. -/
theorem modifyEntries_merged (merges : flags.force = false)
    (modification : modifyEntries entries name entry flags = .ok modified) :
    (∃ current, entries.lookup name = some current ∧
        ¬ ScheduleSticks current.schedule (mergedEntry entries name flags entry).schedule ∧
        name ≠ thisDirName ∧ modified = entries.erase name) ∨
      ∃ merged now, MergedInto entries name flags entry merged now ∧ modified = entries.insert name now := by
  rcases modifyEntries_cases modification with
    ⟨unasked, folded⟩ | ⟨request, scheduled, changed, next, scheduling, result⟩
  · obtain ⟨now, rfl, absorbed⟩ := foldEntry_cases folded
    refine .inr ⟨_, now, ⟨rfl, fun _ => rfl, ?_, absorbed⟩, rfl⟩
    intro current lookup
    rw [mergedEntry_schedule, if_neg (by simp [unasked]), lookup]
    exact ⟨fun _ => .inl rfl, fun _ => rfl⟩
  · have asked : (mergedEntry entries name flags entry).schedule = entry.schedule := by
      rw [mergedEntry_schedule, if_pos request]
    rcases foldScheduling_cases request merges scheduling with
      ⟨absent, rfl, rfl, rfl⟩ | ⟨current, lookup, ⟨added, deletes, below, rfl⟩ |
        ⟨kept, addable, same, takes, rfl, effective⟩⟩
    · rcases result with ⟨isSome, -, -⟩ | ⟨-, folded⟩
      · rw [absent] at isSome
        cases isSome
      · obtain ⟨now, rfl, absorbed⟩ := foldEntry_cases folded
        refine .inr ⟨_, now, ⟨rfl, fun _ => rfl, ?_, absorbed⟩, rfl⟩
        intro current lookup
        rw [absent] at lookup
        cases lookup
    · rcases result with ⟨-, -, rfl⟩ | ⟨stays, -⟩
      · refine .inl ⟨current, lookup, ?_, below, rfl⟩
        rw [asked, added, deletes]
        simp [ScheduleSticks]
      · exact absurd (AList.lookup_erase _ _) (stays (by rw [lookup]; rfl))
    · subst same
      rcases result with ⟨-, gone, -⟩ | ⟨-, folded⟩
      · rw [lookup] at gone
        cases gone
      · obtain ⟨now, rfl, absorbed⟩ := foldEntry_cases folded
        have results : (mergedEntry scheduled name { flags with schedule := takes }
            { entry with schedule := next }).schedule = effectiveSchedule current.schedule entry.schedule := by
          rw [mergedEntry_schedule, lookup]
          exact effective
        refine .inr ⟨_, now, ⟨rfl, ?_, ?_, absorbed⟩, rfl⟩
        · intro absent
          rw [absent] at lookup
          cases lookup
        · intro same found
          rw [lookup] at found
          cases found
          rw [results, asked, effectiveSchedule_eq_iff addable]

/-- Merging twice under the same flags is merging once. -/
theorem mergeFields_left (flags : ModifyFlags) (values other current : Entry) :
    mergeFields flags (mergeFields flags values other) current = mergeFields flags values current := by
  simp +contextual [mergeFields]

theorem mergeFields_right (flags : ModifyFlags) (values other current : Entry) :
    mergeFields flags values (mergeFields flags other current) = mergeFields flags values current := by
  simp +contextual [mergeFields]

theorem eq_mergeFields_iff (flags : ModifyFlags) (values current now : Entry) :
    mergeFields flags values now = now ∧ mergeFields flags now current = now ↔
      now = mergeFields flags values current := by
  constructor
  · rintro ⟨given, kept⟩
    rw [← mergeFields_left flags values now current, given, kept]
  · rintro rfl
    exact ⟨mergeFields_right flags values values current, mergeFields_left flags values current current⟩

end MergedInto

section Back

variable {format : TimeFormat} {path : Bytes} {modified : EntriesHash} {thisDir : Entry}

/-- The file that is written can be read back if the directory's own revision is valid. -/
theorem entriesRead_back {written : List Atts} (found : modified.lookup thisDirName = some thisDir)
    (hasUrl : thisDir.url ≠ none) (writes : entriesWrite format path modified = .ok written) :
    ((∃ after, entriesRead format written = .ok after) ↔ isValidRevnum thisDir.revision) ∧
      ∀ after, entriesRead format written = .ok after →
        ∀ name, after.lookup name = (modified.lookup name).map (resolvedEntry thisDir name) := by
  obtain ⟨-, rfl⟩ := (entriesWrite_eq_ok_iff format path found hasUrl written).mp writes
  refine ⟨⟨?_, ?_⟩, ?_⟩
  · rintro ⟨after, read⟩
    exact valid_of_entriesRead_written found read
  · intro valid
    obtain ⟨after, read, -⟩ := entriesRead_written format found hasUrl valid
    exact ⟨after, read⟩
  · intro after read
    obtain ⟨back, again, lookups⟩ :=
      entriesRead_written format found hasUrl (valid_of_entriesRead_written found read)
    rw [read] at again
    cases again
    exact lookups

end Back

section Fields

variable {before : EntriesHash} {name : Bytes} {atts : Atts} {given : Entry}

/-- The flags of the conversion do not say that the source of a copy is given. -/
def convertedFlags (atts : Atts) : ModifyFlags :=
  { givenFlags atts with copyfromUrl := false, copyfromRev := false }

def stampedEntry (given : Entry) (textTime propTime : Int64) : Entry :=
  { given with textTime := textTime, propTime := propTime }

/-- The entry that comes back from the file, field by field. -/
def ReadBack (before : EntriesHash) (name : Bytes) (atts : Atts) (stamped : Entry) (schedule : Schedule)
    (now : Entry) : Prop :=
  now = { mergedEntry before name (convertedFlags atts) stamped with
    name := name
    schedule := schedule
    revision := now.revision
    url := now.url
    kind := storedKind (mergedEntry before name (convertedFlags atts) stamped).kind
    copyfromRev := storedRev (mergedEntry before name (convertedFlags atts) stamped).copyfromRev
    cmtRev := storedRev (mergedEntry before name (convertedFlags atts) stamped).cmtRev }

/-- What the entry needs to have the given values and to keep the others. -/
structure FieldsStick (before : EntriesHash) (name : Bytes) (atts : Atts) (given : Entry)
    (schedule : Schedule) (now : Entry) : Prop where
  copyfromUrl : (requestedEntry before name atts given).copyfromUrl = (currentEntry before name).copyfromUrl
  copyfromRev : (requestedEntry before name atts given).copyfromRev =
    storedRev (currentEntry before name).copyfromRev
  schedule : schedule = (requestedEntry before name atts given).schedule
  kind : (requestedEntry before name atts given).kind ≠ .unknown
  cmtRev : UnsetOrValid (requestedEntry before name atts given).cmtRev
  revision : before.lookup name ≠ none ∨ atts.revision ≠ none →
    now.revision = (requestedEntry before name atts given).revision
  url : before.lookup name ≠ none ∨ atts.url ≠ none →
    now.url = (requestedEntry before name atts given).url

section Steps

variable {textTime propTime : Int64} {schedule : Schedule} {now : Entry}

/-- An entry that was there before is merged from the given values and from what it was. -/
theorem eq_requested_iff {current : Entry} (lookup : before.lookup name = some current)
    (named : current.name = name)
    (back : ReadBack before name atts (stampedEntry given textTime propTime) schedule now) :
    now = mergeFields (givenFlags atts) (stampedEntry given textTime propTime) current ↔
      FieldsStick before name atts given schedule now := by
  obtain rfl : currentEntry before name = current := by rw [currentEntry, lookup, Option.getD_some]
  constructor
  · intro same
    exact {
      copyfromUrl := (congrArg Entry.copyfromUrl same :).symm.trans (congrArg Entry.copyfromUrl back :)
      copyfromRev := (congrArg Entry.copyfromRev same :).symm.trans (congrArg Entry.copyfromRev back :)
      schedule := (congrArg Entry.schedule back :).symm.trans (congrArg Entry.schedule same :)
      kind := (storedKind_eq_self_iff _).mp
        ((congrArg Entry.kind back :).symm.trans (congrArg Entry.kind same :))
      cmtRev := (storedRev_eq_self_iff _).mp
        ((congrArg Entry.cmtRev back :).symm.trans (congrArg Entry.cmtRev same :))
      revision := fun _ => (congrArg Entry.revision same :)
      url := fun _ => (congrArg Entry.url same :) }
  · intro sticks
    have known : before.lookup name ≠ none := by simp [lookup]
    apply Entry.ext
    case name => exact (congrArg Entry.name back :).trans named.symm
    case revision => exact sticks.revision (.inl known)
    case url => exact sticks.url (.inl known)
    case kind => exact (congrArg Entry.kind back :).trans ((storedKind_eq_self_iff _).mpr sticks.kind)
    case schedule => exact (congrArg Entry.schedule back :).trans sticks.schedule
    case copyfromUrl => exact (congrArg Entry.copyfromUrl back :).trans sticks.copyfromUrl.symm
    case copyfromRev => exact (congrArg Entry.copyfromRev back :).trans sticks.copyfromRev.symm
    case cmtRev => exact (congrArg Entry.cmtRev back :).trans ((storedRev_eq_self_iff _).mpr sticks.cmtRev)
    case copied => exact (congrArg Entry.copied back :)
    case conflictOld => exact (congrArg Entry.conflictOld back :)
    case conflictNew => exact (congrArg Entry.conflictNew back :)
    case conflictWrk => exact (congrArg Entry.conflictWrk back :)
    case prejfile => exact (congrArg Entry.prejfile back :)
    case textTime => exact (congrArg Entry.textTime back :)
    case propTime => exact (congrArg Entry.propTime back :)
    case cmtDate => exact (congrArg Entry.cmtDate back :)
    case cmtAuthor => exact (congrArg Entry.cmtAuthor back :)

theorem given_of_merged {α : Type} {flag : Bool} {value default now : α}
    (merged : now = if flag = true then value else default) : (if flag = true then value else now) = now := by
  cases flag with
  | true => exact merged.symm
  | false => rfl

theorem merged_of_given {α : Type} {flag : Bool} {value default now : α}
    (given : (if flag = true then value else now) = now) (unset : flag = false → now = default) :
    (if flag = true then value else default) = now := by
  cases flag with
  | true => exact given
  | false => exact (unset rfl).symm

/-- A new entry has the given values, and nothing is asked of the others. -/
theorem mergeFields_new_iff (lookup : before.lookup name = none)
    (back : ReadBack before name atts (stampedEntry given textTime propTime) schedule now)
    (fresh : schedule = (requestedEntry before name atts given).schedule) :
    mergeFields (givenFlags atts) (stampedEntry given textTime propTime) now = now ↔
      FieldsStick before name atts given schedule now := by
  have alloc : currentEntry before name = allocEntry name := by rw [currentEntry, lookup, Option.getD_none]
  have copyfromUrl : now.copyfromUrl = (currentEntry before name).copyfromUrl :=
    (congrArg Entry.copyfromUrl back :)
  have copyfromRev : now.copyfromRev = storedRev (currentEntry before name).copyfromRev :=
    (congrArg Entry.copyfromRev back :)
  have kind : now.kind = storedKind (requestedEntry before name atts given).kind :=
    (congrArg Entry.kind back :)
  have cmtRev : now.cmtRev = storedRev (requestedEntry before name atts given).cmtRev :=
    (congrArg Entry.cmtRev back :)
  constructor
  · intro same
    have sameKind : (requestedEntry before name atts given).kind = now.kind := by
      refine merged_of_given (congrArg Entry.kind same :) ?_
      intro unset
      rw [kind, requestedEntry, mergeFields, unset, alloc]
      rfl
    have sameCmtRev : (requestedEntry before name atts given).cmtRev = now.cmtRev := by
      refine merged_of_given (congrArg Entry.cmtRev same :) ?_
      intro unset
      rw [cmtRev, requestedEntry, mergeFields, unset, alloc]
      rfl
    refine ⟨?_, ?_, fresh, ?_, ?_, ?_, ?_⟩
    · exact (merged_of_given (congrArg Entry.copyfromUrl same :) fun _ => copyfromUrl).trans copyfromUrl
    · refine (merged_of_given (congrArg Entry.copyfromRev same :) ?_).trans copyfromRev
      intro unset
      rw [copyfromRev, alloc]
      rfl
    · exact (storedKind_eq_self_iff _).mp (kind.symm.trans sameKind.symm)
    · exact (storedRev_eq_self_iff _).mp (cmtRev.symm.trans sameCmtRev.symm)
    · intro asked
      have isSome := asked.resolve_left (fun known => known lookup)
      refine (merged_of_given (congrArg Entry.revision same :) ?_).symm
      exact fun unset => absurd (Option.isSome_eq_false_iff.mp unset) (by simpa using isSome)
    · intro asked
      have isSome := asked.resolve_left (fun known => known lookup)
      refine (merged_of_given (congrArg Entry.url same :) ?_).symm
      exact fun unset => absurd (Option.isSome_eq_false_iff.mp unset) (by simpa using isSome)
  · intro sticks
    apply Entry.ext
    case name => rfl
    case revision =>
      cases asked : atts.revision with
      | none => simp [mergeFields, givenFlags, asked]
      | some revision => exact given_of_merged (sticks.revision (.inr (by simp [asked])))
    case url =>
      cases asked : atts.url with
      | none => simp [mergeFields, givenFlags, asked]
      | some url => exact given_of_merged (sticks.url (.inr (by simp [asked])))
    case kind => exact given_of_merged (kind.trans ((storedKind_eq_self_iff _).mpr sticks.kind))
    case schedule => exact given_of_merged ((congrArg Entry.schedule back :).trans fresh)
    case copyfromUrl => exact given_of_merged (copyfromUrl.trans sticks.copyfromUrl.symm)
    case copyfromRev => exact given_of_merged (copyfromRev.trans sticks.copyfromRev.symm)
    case cmtRev => exact given_of_merged (cmtRev.trans ((storedRev_eq_self_iff _).mpr sticks.cmtRev))
    case copied => exact given_of_merged (congrArg Entry.copied back :)
    case conflictOld => exact given_of_merged (congrArg Entry.conflictOld back :)
    case conflictNew => exact given_of_merged (congrArg Entry.conflictNew back :)
    case conflictWrk => exact given_of_merged (congrArg Entry.conflictWrk back :)
    case prejfile => exact given_of_merged (congrArg Entry.prejfile back :)
    case textTime => exact given_of_merged (congrArg Entry.textTime back :)
    case propTime => exact given_of_merged (congrArg Entry.propTime back :)
    case cmtDate => exact given_of_merged (congrArg Entry.cmtDate back :)
    case cmtAuthor => exact given_of_merged (congrArg Entry.cmtAuthor back :)

theorem leavesEntry_iff (named : Named before)
    (back : ReadBack before name atts (stampedEntry given textTime propTime) schedule now)
    (fresh : before.lookup name = none → schedule = (requestedEntry before name atts given).schedule) :
    (mergeFields (givenFlags atts) (stampedEntry given textTime propTime) now = now ∧
        ∀ current, before.lookup name = some current → mergeFields (givenFlags atts) now current = now) ↔
      FieldsStick before name atts given schedule now := by
  cases lookup : before.lookup name with
  | none => simpa using mergeFields_new_iff lookup back (fresh lookup)
  | some current =>
      simp only [Option.some.injEq, forall_eq']
      rw [eq_mergeFields_iff]
      exact eq_requested_iff lookup (named name current lookup) back

end Steps

end Fields

section Success

variable {format : TimeFormat} {disk : Disk} {path name : Bytes} {file written : List Atts} {atts : Atts}

theorem attsToEntry_given {given : Entry} {flags : ModifyFlags}
    (converted : attsToEntry format atts = .ok (given, flags)) :
    flags = convertedFlags atts ∧ given.url = atts.url ∧
      given.textTime = attsToTime format atts.textTime ∧
      given.propTime = attsToTime format atts.propTime := by
  obtain ⟨kind, -, rest⟩ := bind_eq_ok converted
  obtain ⟨schedule, -, rest⟩ := bind_eq_ok rest
  obtain ⟨copied, -, done⟩ := bind_eq_ok rest
  cases done
  exact ⟨rfl, rfl, rfl, rfl⟩

theorem modifyTextTime_eq_ok {tfile : Bytes} {entry stamped : Entry}
    (timed : modifyTextTime disk tfile atts entry = .ok stamped) :
    ∃ textTime, stamped = { entry with textTime := textTime } ∧
      if atts.textTime = some timestampWc then fileAffectedTime disk tfile = .ok textTime
      else textTime = entry.textTime := by
  rw [modifyTextTime] at timed
  split at timed
  · next working =>
      split at timed
      · cases timed
      · cases timed
      · next affected _ =>
          cases timed
          exact ⟨_, rfl, by rw [if_pos working]; exact affected⟩
  · next working =>
      cases timed
      exact ⟨entry.textTime, rfl, by rw [if_neg working]⟩

theorem modifyPropTime_eq_ok {tfile : Bytes} {entry stamped : Entry}
    (timed : modifyPropTime disk path tfile atts entry = .ok stamped) :
    ∃ propTime, stamped = { entry with propTime := propTime } ∧
      if atts.propTime = some timestampWc then fileAffectedTime disk tfile = .ok propTime
      else propTime = entry.propTime := by
  rw [modifyPropTime] at timed
  split at timed
  · next working =>
      split at timed
      · cases timed
      · split at timed
        · cases timed
        · cases timed
        · next affected _ =>
            cases timed
            exact ⟨_, rfl, by rw [if_pos working]; exact affected⟩
  · next working =>
      cases timed
      exact ⟨entry.propTime, rfl, by rw [if_neg working]⟩

/-- What a command that succeeds has done. -/
structure Modifies (format : TimeFormat) (disk : Disk) (path name : Bytes) (file : List Atts) (atts : Atts)
    (written : List Atts) (given : Entry) (textTime propTime : Int64) (before modified : EntriesHash) :
    Prop where
  converted : attsToEntry format atts = .ok (given, convertedFlags atts)
  textStamp : if atts.textTime = some timestampWc then
      fileAffectedTime disk (timedPath path name atts) = .ok textTime
    else textTime = attsToTime format atts.textTime
  propStamp : if atts.propTime = some timestampWc then
      fileAffectedTime disk (timedPath path name atts) = .ok propTime
    else propTime = attsToTime format atts.propTime
  read : entriesRead format file = .ok before
  modification : modifyEntries before name (stampedEntry given textTime propTime) (convertedFlags atts) =
    .ok modified
  writes : entriesWrite format path modified = .ok written

theorem logDoModifyEntry_eq_ok (success : logDoModifyEntry format disk path name file atts = .ok written) :
    ∃ given textTime propTime before modified,
      Modifies format disk path name file atts written given textTime propTime before modified := by
  obtain ⟨given, converted, rest⟩ := bind_eq_ok success
  obtain ⟨withText, textTimed, rest⟩ := bind_eq_ok rest
  obtain ⟨stamped, propTimed, rest⟩ := bind_eq_ok rest
  obtain ⟨textTime, rfl, text⟩ := modifyTextTime_eq_ok textTimed
  obtain ⟨propTime, rfl, prop⟩ := modifyPropTime_eq_ok propTimed
  obtain ⟨flags, -, sameText, sameProp⟩ := attsToEntry_given converted
  split at rest
  · next modified =>
      cases rest
      obtain ⟨before, after, read, modification, writes⟩ := entryModify_eq_ok modified
      rw [flags] at modification
      refine ⟨given.1, textTime, propTime, before, after, ?_, ?_, ?_, read, modification, writes⟩
      · rw [converted, ← flags]
      · rw [← sameText]
        exact text
      · rw [← sameProp]
        exact prop
  · cases rest

end Success

section Main

variable {format : TimeFormat} {disk : Disk} {path name : Bytes} {file written : List Atts} {atts : Atts}
  {before : EntriesHash} {given merged now thisDir : Entry} {textTime propTime : Int64}

theorem takeFromEntry_self (entry : Entry) : takeFromEntry entry entry = entry := by
  rw [takeFromEntry, ite_self]
  split
  · next inherits => rw [inherits.1, Option.map_none, ← inherits.1]
  · rfl

/-- The directory's own entry after the modification. -/
theorem MergedInto.directory
    (merges : MergedInto before name (convertedFlags atts) (stampedEntry given textTime propTime) merged now)
    (named : Named before) (found : before.lookup thisDirName = some thisDir) (hasUrl : thisDir.url ≠ none)
    (givenUrl : given.url = atts.url) :
    ∃ directory, (before.insert name now).lookup thisDirName = some directory ∧ directory.url ≠ none ∧
      directory.revision = (requestedDir before name atts given).revision ∧
      directory.url = (requestedDir before name atts given).url ∧
      (name = thisDirName → directory = merged) ∧
      (isValidRevnum directory.revision →
        resolvedEntry directory name now = resolvedEntry directory name merged) := by
  have current : currentEntry before thisDirName = thisDir := by
    rw [currentEntry, found, Option.getD_some]
  have revision : merged.revision = (requestedEntry before name atts given).revision :=
    (congrArg Entry.revision merges.scheduled :)
  have url : merged.url = (requestedEntry before name atts given).url :=
    (congrArg Entry.url merges.scheduled :)
  by_cases own : name = thisDirName
  · subst own
    have same : now = merged := by
      rcases merges.absorbed with same | ⟨default, isDefault, same⟩
      · exact same
      · rw [foldDefault, if_pos ⟨rfl, by rw [found]; rfl⟩, Option.some.injEq] at isDefault
        rw [same, ← isDefault, takeFromEntry_self]
    subst same
    refine ⟨now, AList.lookup_insert _, ?_, ?_, ?_, fun _ => rfl, fun _ => rfl⟩
    · rw [url, requestedEntry, current, mergeFields, givenUrl]
      cases asked : atts.url with
      | none => simpa [givenFlags, asked] using hasUrl
      | some url => simp [givenFlags, asked]
    · rw [requestedDir, if_pos rfl, revision]
    · rw [requestedDir, if_pos rfl, url]
  · have mergedName : merged.name = name :=
      (congrArg Entry.name merges.scheduled :).trans (named.mergedEntry name (convertedFlags atts)
        (stampedEntry given textTime propTime))
    refine ⟨thisDir, ?_, hasUrl, ?_, ?_, fun same => absurd same own, ?_⟩
    · rw [AList.lookup_insert_ne (Ne.symm own), found]
    · rw [requestedDir, if_neg own, current]
    · rw [requestedDir, if_neg own, current]
    · intro valid
      rcases merges.absorbed with same | ⟨default, isDefault, same⟩
      · rw [same]
      · rw [foldDefault, if_neg (fun both => own both.1), found, Option.some.injEq] at isDefault
        rw [same, ← isDefault, resolvedEntry_takeFromEntry own mergedName valid]

/-- The directory's own entry comes back with its revision and its url. -/
theorem resolvedEntry_thisDir (hasRevision : isValidRevnum thisDir.revision) :
    (resolvedEntry thisDir thisDirName thisDir).revision = thisDir.revision ∧
      (resolvedEntry thisDir thisDirName thisDir).url = thisDir.url := by
  rw [resolvedEntry, fillDefaults, if_pos rfl]
  exact ⟨storedUnder_thisDir_revision hasRevision, storedUnder_thisDir_url⟩

/-- The conditions on what comes back, as conditions on what was there and on what is asked for. -/
theorem fieldsStick_iff {directory : Entry}
    (merges : MergedInto before name (convertedFlags atts) (stampedEntry given textTime propTime) merged now)
    (valid : isValidRevnum directory.revision) (hasUrl : directory.url ≠ none)
    (revision : directory.revision = (requestedDir before name atts given).revision)
    (url : directory.url = (requestedDir before name atts given).url)
    (own : name = thisDirName → directory = merged) :
    FieldsStick before name atts given merged.schedule (resolvedEntry directory name merged) ↔
      EntrySticks before name atts given := by
  have mergedRevision : merged.revision = (requestedEntry before name atts given).revision :=
    (congrArg Entry.revision merges.scheduled :)
  have mergedUrl : merged.url = (requestedEntry before name atts given).url :=
    (congrArg Entry.url merges.scheduled :)
  have mergedKind : merged.kind = (requestedEntry before name atts given).kind :=
    (congrArg Entry.kind merges.scheduled :)
  have effective : merged.schedule = (requestedEntry before name atts given).schedule ↔
      ∀ current, before.lookup name = some current →
        ScheduleSticks current.schedule (requestedEntry before name atts given).schedule := by
    cases lookup : before.lookup name with
    | none =>
        simp only [reduceCtorEq, false_implies, implies_true, iff_true]
        exact merges.fresh lookup
    | some current =>
        simp only [Option.some.injEq, forall_eq']
        exact merges.known current lookup
  have revisionIff (known : (requestedEntry before name atts given).kind ≠ .unknown) :
      (resolvedEntry directory name merged).revision = (requestedEntry before name atts given).revision ↔
        (name ≠ thisDirName →
          RevisionSurvives (requestedDir before name atts given) (requestedEntry before name atts given)) := by
    by_cases same : name = thisDirName
    · obtain rfl := own same
      subst same
      rw [(resolvedEntry_thisDir valid).1, mergedRevision]
      simp
    · rw [← mergedRevision, resolvedEntry_revision_iff same (by rwa [mergedKind]) valid]
      simp only [RevisionSurvives, mergedKind, mergedRevision, revision, ne_eq, same, not_false_eq_true,
        forall_const]
  have urlIff (known : (requestedEntry before name atts given).kind ≠ .unknown)
      (scheduled : merged.schedule = (requestedEntry before name atts given).schedule) :
      (resolvedEntry directory name merged).url = (requestedEntry before name atts given).url ↔
        (name ≠ thisDirName → UrlSurvives (requestedDir before name atts given) name
          (requestedEntry before name atts given)) := by
    by_cases same : name = thisDirName
    · obtain rfl := own same
      subst same
      rw [(resolvedEntry_thisDir valid).2, mergedUrl]
      simp
    · rw [← mergedUrl, resolvedEntry_url_iff same (by rwa [mergedKind]) hasUrl]
      simp only [UrlSurvives, mergedKind, mergedUrl, scheduled, url, ne_eq, same, not_false_eq_true,
        forall_const]
  constructor
  · intro sticks
    refine ⟨sticks.copyfromUrl, sticks.copyfromRev, effective.mp sticks.schedule, sticks.kind,
      sticks.cmtRev, ?_, ?_⟩
    · exact fun below asked => (revisionIff sticks.kind).mp (sticks.revision asked) below
    · exact fun below asked => (urlIff sticks.kind sticks.schedule).mp (sticks.url asked) below
  · intro sticks
    have scheduled := effective.mpr sticks.schedule
    refine ⟨sticks.copyfromUrl, sticks.copyfromRev, scheduled, sticks.kind, sticks.cmtRev, ?_, ?_⟩
    · exact fun asked => (revisionIff sticks.kind).mpr fun below => sticks.revision below asked
    · exact fun asked => (urlIff sticks.kind scheduled).mpr fun below => sticks.url below asked

theorem timedPath_of_working (working : atts.textTime = some timestampWc) :
    timedPath path name atts = entryPath path name := by
  rw [timedPath, entryPath]
  by_cases own : name = thisDirName
  · rw [if_neg (fun both => both.2 own), if_pos own]
  · rw [if_pos ⟨working, own⟩, if_neg own]

/-- The entry is read back with the fields that were merged. -/
theorem MergedInto.readBack
    (merges : MergedInto before name (convertedFlags atts) (stampedEntry given textTime propTime) merged now)
    (directory : Entry) :
    ReadBack before name atts (stampedEntry given textTime propTime) merged.schedule
      (resolvedEntry directory name merged) := by
  obtain ⟨schedule, rfl⟩ : ∃ schedule, merged =
      { mergedEntry before name (convertedFlags atts) (stampedEntry given textTime propTime) with
        schedule := schedule } := ⟨_, merges.scheduled⟩
  exact resolvedEntry_fields directory name _

section Values

variable {modified : EntriesHash}

/-- The values that were put into the entry are the given ones if the time of the properties is. -/
theorem Modifies.values (does : Modifies format disk path name file atts written given textTime propTime
      before modified)
    (sameTime : atts.propTime = some timestampWc →
      propFileTime disk (entryPath path name) = fileAffectedTime disk (timedPath path name atts)) :
    GivenValues format disk path name atts (stampedEntry given textTime propTime) := by
  refine ⟨⟨given, _, does.converted, rfl⟩, ?_, ?_⟩
  · have stamp := does.textStamp
    split at stamp
    · next working =>
        rw [if_pos working, ← timedPath_of_working working]
        exact stamp
    · next working => rwa [if_neg working]
  · have stamp := does.propStamp
    split at stamp
    · next working =>
        rw [if_pos working, sameTime working]
        exact stamp
    · next working => rwa [if_neg working]

/-- Values that the entry has are those that were put into it. -/
theorem Modifies.eq_values (does : Modifies format disk path name file atts written given textTime propTime
      before modified) {values now : Entry} {schedule : Schedule}
    (isGiven : GivenValues format disk path name atts values)
    (back : ReadBack before name atts (stampedEntry given textTime propTime) schedule now)
    (has : mergeFields (givenFlags atts) values now = now) :
    values = stampedEntry given textTime propTime := by
  obtain ⟨⟨entry, flags, converted, same⟩, text, prop⟩ := isGiven
  rw [does.converted] at converted
  cases converted
  have sameText : values.textTime = textTime := by
    have stamp := does.textStamp
    split at stamp
    · next working =>
        rw [if_pos working, ← timedPath_of_working working, stamp] at text
        exact (Except.ok.inj text).symm
    · next working =>
        rw [if_neg working] at text
        rw [text, stamp]
  have sameProp : values.propTime = propTime := by
    have stamp := does.propStamp
    split at stamp
    · next working =>
        have flagged : (givenFlags atts).propTime = true := by simp [givenFlags, working]
        have stored := (congrArg Entry.propTime back :)
        have given := (congrArg Entry.propTime has :)
        simp only [mergeFields, mergedEntry, convertedFlags, flagged, if_true] at stored given
        exact given.trans stored
    · next working =>
        rw [if_neg working] at prop
        rw [prop, stamp]
  rw [same, sameText, sameProp]
  rfl

end Values

/-- Every other entry comes back as it was. -/
theorem others_iff {directory : Entry} (named : Named before)
    (valid : isValidRevnum directory.revision) (hasUrl : directory.url ≠ none)
    (revision : directory.revision = (requestedDir before name atts given).revision)
    (url : directory.url = (requestedDir before name atts given).url)
    (noDot : (before.insert name now).lookup [46] = none) {after : EntriesHash}
    (lookups : ∀ other, after.lookup other =
      ((before.insert name now).lookup other).map (resolvedEntry directory other)) :
    (∀ other, other ≠ name → after.lookup other = before.lookup other) ↔
      ∀ other entry, other ≠ name → before.lookup other = some entry →
        EntrySurvives (requestedDir before name atts given) other entry ∧ clearSubdir other entry = entry := by
  have comesBack (other : Bytes) (entry : Entry) (different : other ≠ name)
      (lookup : before.lookup other = some entry) :
      after.lookup other = before.lookup other ↔
        EntrySurvives (requestedDir before name atts given) other entry ∧ clearSubdir other entry = entry := by
    rw [lookups, AList.lookup_insert_ne different, lookup, Option.map_some, Option.some.injEq,
      resolvedEntry_congr revision url]
    rw [revision] at valid
    rw [url] at hasUrl
    apply resolvedEntry_eq_self_iff hasUrl valid (named other entry lookup)
    · rintro rfl
      rw [requestedDir, if_neg (Ne.symm different), currentEntry, lookup, Option.getD_some]
    · rintro - rfl
      rw [AList.lookup_insert_ne different, lookup] at noDot
      cases noDot
  constructor
  · intro same other entry different lookup
    exact (comesBack other entry different lookup).mp (same other different)
  · intro survives other different
    cases lookup : before.lookup other with
    | none => rw [lookups, AList.lookup_insert_ne different, lookup, Option.map_none]
    | some entry =>
        rw [← lookup]
        exact (comesBack other entry different lookup).mpr (survives other entry different lookup)

/-- A successful command leaves the given attributes, and all else as it was, just if they stick. -/
theorem logDoModifyEntry_iff (success : logDoModifyEntry format disk path name file atts = .ok written) :
    LeavesGiven format disk path name file atts written ↔
      ∃ before given flags, entriesRead format file = .ok before ∧
        attsToEntry format atts = .ok (given, flags) ∧ Sticks disk path name atts before given := by
  obtain ⟨given, textTime, propTime, before, modified, does⟩ := logDoModifyEntry_eq_ok success
  have named := Named.read does.read
  obtain ⟨thisDir, found, -, hasUrl⟩ := entriesRead_thisDir does.read
  have givenUrl := (attsToEntry_given does.converted).2.1
  rcases modifyEntries_merged rfl does.modification with
    ⟨current, lookup, refused, below, rfl⟩ | ⟨merged, now, merges, rfl⟩
  · constructor
    · rintro ⟨values, again, after, left, -, reread, back, present, -⟩
      have stays : (before.erase name).lookup thisDirName = some thisDir := by
        rw [AList.lookup_erase_ne (Ne.symm below), found]
      rw [(entriesRead_back stays hasUrl does.writes).2 after back, AList.lookup_erase] at present
      cases present
    · rintro ⟨again, entry, flags, reread, converted, sticks⟩
      rw [does.read] at reread
      rw [does.converted] at converted
      cases reread
      cases converted
      exact absurd (sticks.entry.schedule current lookup) refused
  · obtain ⟨directory, directoryFound, directoryUrl, revision, url, own, absorbed⟩ :=
      merges.directory named found hasUrl givenUrl
    obtain ⟨readable, lookups⟩ := entriesRead_back directoryFound directoryUrl does.writes
    have noDot := ((entriesWrite_eq_ok_iff format path directoryFound directoryUrl written).mp
      does.writes).1
    have back := merges.readBack directory
    constructor
    · rintro ⟨values, again, after, left, isGiven, reread, readBack, present, has, kept, others⟩
      rw [does.read] at reread
      cases reread
      have valid := readable.mp ⟨after, readBack⟩
      rw [lookups after readBack, AList.lookup_insert, Option.map_some, absorbed valid,
        Option.some.injEq] at present
      subst present
      obtain rfl := does.eq_values isGiven back has
      have fields := (leavesEntry_iff named back merges.fresh).mp ⟨has, kept⟩
      refine ⟨before, given, convertedFlags atts, does.read, does.converted, ?_, ?_, ?_, ?_⟩
      · intro working
        have affected := isGiven.propTime
        have stamp := does.propStamp
        rw [if_pos working] at affected stamp
        rw [affected, stamp]
        rfl
      · exact (fieldsStick_iff merges valid directoryUrl revision url own).mp fields
      · rwa [← revision]
      · exact (others_iff named valid directoryUrl revision url noDot (lookups after readBack)).mp others
    · rintro ⟨again, entry, flags, reread, converted, sticks⟩
      rw [does.read] at reread
      rw [does.converted] at converted
      cases reread
      cases converted
      have valid : isValidRevnum directory.revision := by
        rw [revision]
        exact sticks.directory
      obtain ⟨after, readBack⟩ := readable.mpr valid
      have fields := (fieldsStick_iff merges valid directoryUrl revision url own).mpr sticks.entry
      obtain ⟨has, kept⟩ := (leavesEntry_iff named back merges.fresh).mpr fields
      refine ⟨_, before, after, resolvedEntry directory name merged, does.values sticks.propTime, does.read,
        readBack, ?_, has, kept, ?_⟩
      · rw [lookups after readBack, AList.lookup_insert, Option.map_some, absorbed valid]
      · exact (others_iff named valid directoryUrl revision url noDot (lookups after readBack)).mpr
          sticks.others

/-- A disk of files that were all changed at time five. -/
def evenDisk : Disk where
  stat _ := .found .regular 4 5
  opensReadme _ := true
  closesReadme _ := true

def stampAtts : Atts :=
  { noAtts with name := some [102], cmtRev := some [51], textTime := some timestampWc }

def stampedAtts : Atts := { fileAtts with cmtRev := some [51], textTime := some [53] }

theorem logDoModifyEntry_stamps :
    LeavesGiven decimalTime evenDisk [100] [102] [directoryAtts, fileAtts] stampAtts
      [{ directoryAtts with name := some thisDirName }, stampedAtts] := by
  apply (logDoModifyEntry_iff (by rfl)).mpr
  refine ⟨plainEntries, { allocEntry [102] with cmtRev := 3 }, convertedFlags stampAtts, rfl, rfl, ?_, ?_,
    by decide, ?_⟩
  · intro working
    cases working
  · refine ⟨by decide, by decide, ?_, by decide, by decide, fun _ _ => ?_, fun _ _ => ?_⟩
    · intro current lookup
      cases lookup
      exact .inl rfl
    · show isValidRevnum 3
      decide
    · show some [117, 47, 102] ≠ none
      decide
  · intro other entry different lookup
    rw [plainEntries, AList.lookup_insert_ne different] at lookup
    by_cases own : other = thisDirName
    · subst own
      cases lookup
      exact ⟨⟨by decide, .inl rfl, .inl rfl, fun below => absurd rfl below⟩, rfl⟩
    · rw [AList.lookup_insert_ne own] at lookup
      cases lookup

def copiedAtts : Atts :=
  { noAtts with name := some [102], copyfromUrl := some [117, 47, 103], copyfromRev := some [50] }

/-- The source of a copy is read from the attributes, and it does not get into the entry. -/
theorem logDoModifyEntry_drops_copyfrom :
    ¬ ∀ (format : TimeFormat) (disk : Disk) (path name : Bytes) (file : List Atts) (atts : Atts)
      (written : List Atts), logDoModifyEntry format disk path name file atts = .ok written →
        LeavesGiven format disk path name file atts written := by
  intro claim
  obtain ⟨values, before, after, now, isGiven, -, read, present, has, -⟩ :=
    claim decimalTime evenDisk [100] [102] [directoryAtts, fileAtts] copiedAtts
      [{ directoryAtts with name := some thisDirName }, fileAtts] (by rfl)
  obtain ⟨⟨entry, flags, converted, same⟩, -⟩ := isGiven
  cases converted
  cases read
  cases present
  have source : values.copyfromUrl = none := (congrArg Entry.copyfromUrl has :)
  rw [same] at source
  cases source

end Main

end Subversion.Wc
