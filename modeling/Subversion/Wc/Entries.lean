/-
This file models the entries file of a directory: reading, writing, and changing its entries.
-/

import Mathlib.Data.List.AList
import Subversion.Subr.Path
import Subversion.Subr.Numbers

namespace Subversion.Wc

open Delta Subr

inductive NodeKind where
  | none
  | file
  | dir
  | unknown
  deriving DecidableEq, Repr

def text (bytes : Bytes) : String := String.ofList (bytes.map fun byte => Char.ofNat byte.toNat)

inductive Schedule where
  | normal
  | add
  | delete
  | replace
  deriving DecidableEq, Repr

/-- A time of zero means that no information is available. -/
@[ext]
structure Entry where
  name : Bytes
  revision : Int64
  url : Option Bytes
  kind : NodeKind
  schedule : Schedule
  copied : Bool
  copyfromUrl : Option Bytes
  copyfromRev : Int64
  conflictOld : Option Bytes
  conflictNew : Option Bytes
  conflictWrk : Option Bytes
  prejfile : Option Bytes
  textTime : Int64
  propTime : Int64
  cmtRev : Int64
  cmtDate : Int64
  cmtAuthor : Option Bytes
  deriving DecidableEq

def allocEntry (name : Bytes) : Entry where
  name := name
  revision := invalidRevnum
  url := none
  kind := .none
  schedule := .normal
  copied := false
  copyfromUrl := none
  copyfromRev := invalidRevnum
  conflictOld := none
  conflictNew := none
  conflictWrk := none
  prejfile := none
  textTime := 0
  propTime := 0
  cmtRev := invalidRevnum
  cmtDate := 0
  cmtAuthor := none

/-- The entries by name, in the order in which the hash gives them. -/
abbrev EntriesHash := AList fun _ : Bytes => Entry

/-- The attributes of one entry in the file, after their escapes are undone. -/
structure Atts where
  name : Option Bytes
  revision : Option Bytes
  url : Option Bytes
  kind : Option Bytes
  schedule : Option Bytes
  copied : Option Bytes
  copyfromUrl : Option Bytes
  copyfromRev : Option Bytes
  conflictOld : Option Bytes
  conflictNew : Option Bytes
  conflictWrk : Option Bytes
  prejfile : Option Bytes
  textTime : Option Bytes
  propTime : Option Bytes
  cmtRev : Option Bytes
  cmtDate : Option Bytes
  cmtAuthor : Option Bytes
  deriving DecidableEq

/-- The fields that a modification takes from its entry. -/
structure ModifyFlags where
  revision : Bool
  url : Bool
  kind : Bool
  textTime : Bool
  propTime : Bool
  schedule : Bool
  copied : Bool
  copyfromUrl : Bool
  copyfromRev : Bool
  conflictOld : Bool
  conflictNew : Bool
  conflictWrk : Bool
  prejfile : Bool
  cmtRev : Bool
  cmtDate : Bool
  cmtAuthor : Bool
  force : Bool
  deriving DecidableEq

/-- The name `svn:this_dir`. -/
def thisDirName : Bytes := [115, 118, 110, 58, 116, 104, 105, 115, 95, 100, 105, 114]

def fileStr : Bytes := [102, 105, 108, 101]

def dirStr : Bytes := [100, 105, 114]

def addStr : Bytes := [97, 100, 100]

def deleteStr : Bytes := [100, 101, 108, 101, 116, 101]

def replaceStr : Bytes := [114, 101, 112, 108, 97, 99, 101]

def trueStr : Bytes := [116, 114, 117, 101]

def falseStr : Bytes := [102, 97, 108, 115, 101]

/-- The text `working` asks for the time of the working file. -/
def timestampWc : Bytes := [119, 111, 114, 107, 105, 110, 103]

/-- The text of a time. Reading it returns the time, and no time is written as the magic word. -/
structure TimeFormat where
  toNts : Int64 → Bytes
  fromNts : Bytes → Int64
  fromNts_toNts : ∀ time, fromNts (toNts time) = time
  toNts_ne_working : ∀ time, toNts time ≠ timestampWc

section Reading

variable (format : TimeFormat)

def attsToKind (name : Bytes) : Option Bytes → Except SvnError NodeKind
  | none => .ok .none
  | some kindstr =>
      if kindstr = fileStr then .ok .file
      else if kindstr = dirStr then .ok .dir
      else .error ⟨.unknownNodeKind, "Entry '" ++ text name ++ "' has invalid node kind"⟩

def attsToSchedule (name : Bytes) : Option Bytes → Except SvnError Schedule
  | none => .ok .normal
  | some schedulestr =>
      if schedulestr = addStr then .ok .add
      else if schedulestr = deleteStr then .ok .delete
      else if schedulestr = replaceStr then .ok .replace
      else if schedulestr = [] then .ok .normal
      else .error ⟨.entryAttributeInvalid, "Entry '" ++ text name ++
        "' has invalid 'schedule' value"⟩

def attsToCopied (name : Bytes) : Option Bytes → Except SvnError Bool
  | none => .ok false
  | some copiedstr =>
      if copiedstr = trueStr then .ok true
      else if copiedstr = falseStr then .ok false
      else if copiedstr = [] then .ok false
      else .error ⟨.entryAttributeInvalid, "Entry '" ++ text name ++
        "' has invalid 'copied' value"⟩

def attsToRev : Option Bytes → Int64
  | none => invalidRevnum
  | some revstr => atol revstr

/-- The magic word leaves the time unset. -/
def attsToTime : Option Bytes → Int64
  | none => 0
  | some timestr => if timestr = timestampWc then 0 else format.fromNts timestr

def attsToDate : Option Bytes → Int64
  | none => 0
  | some datestr => format.fromNts datestr

/-- The source of a copy sets no flag. -/
def attsToEntry (atts : Atts) : Except SvnError (Entry × ModifyFlags) := do
  let name := atts.name.getD thisDirName
  let kind ← attsToKind name atts.kind
  let schedule ← attsToSchedule name atts.schedule
  let copied ← attsToCopied name atts.copied
  return (
    { name := name
      revision := attsToRev atts.revision
      url := atts.url
      kind := kind
      schedule := schedule
      copied := copied
      copyfromUrl := atts.copyfromUrl
      copyfromRev := attsToRev atts.copyfromRev
      conflictOld := atts.conflictOld
      conflictNew := atts.conflictNew
      conflictWrk := atts.conflictWrk
      prejfile := atts.prejfile
      textTime := attsToTime format atts.textTime
      propTime := attsToTime format atts.propTime
      cmtRev := attsToRev atts.cmtRev
      cmtDate := attsToDate format atts.cmtDate
      cmtAuthor := atts.cmtAuthor },
    { revision := atts.revision.isSome
      url := atts.url.isSome
      kind := atts.kind.isSome
      textTime := atts.textTime.isSome
      propTime := atts.propTime.isSome
      schedule := atts.schedule.isSome
      copied := atts.copied.isSome
      copyfromUrl := false
      copyfromRev := false
      conflictOld := atts.conflictOld.isSome
      conflictNew := atts.conflictNew.isSome
      conflictWrk := atts.conflictWrk.isSome
      prejfile := atts.prejfile.isSome
      cmtRev := atts.cmtRev.isSome
      cmtDate := atts.cmtDate.isSome
      cmtAuthor := atts.cmtAuthor.isSome
      force := false })

/-- After a failed conversion the handler goes on with an entry that was never set. -/
def handleStartTag (entries : EntriesHash) (atts : Atts) : Except SvnError EntriesHash :=
  match attsToEntry format atts with
  | .error _ => .error SvnError.undefinedBehaviour
  | .ok (entry, _) => .ok (entries.insert entry.name entry)

/-- An entry that is being added does not really have a url yet. -/
def inheritsUrl (dst : Entry) : Prop :=
  dst.url = none ∧ dst.schedule ≠ .add ∧ dst.schedule ≠ .replace

instance (dst : Entry) : Decidable (inheritsUrl dst) := inferInstanceAs (Decidable (_ ∧ _))

/-- The callers see to it that the source has a url if one is inherited. -/
def takeFromEntry (src dst : Entry) : Entry :=
  { dst with
    revision := if dst.revision = invalidRevnum ∧ dst.kind ≠ .dir then src.revision else dst.revision
    url := if inheritsUrl dst then src.url.map (addComponent · dst.name) else dst.url }

/-- Every entry of a hash, changed in place. -/
def mapEntries (change : Bytes → Entry → Entry) (entries : EntriesHash) : EntriesHash where
  entries := entries.entries.map fun entry => ⟨entry.1, change entry.1 entry.2⟩
  nodupKeys := by
    have keys : (entries.entries.map fun entry =>
        (⟨entry.1, change entry.1 entry.2⟩ : Sigma fun _ : Bytes => Entry)).keys =
          entries.entries.keys := by
      simp [List.keys]
    rw [List.NodupKeys, keys]
    exact entries.nodupKeys

/-- A directory's own entry fills in what the entries of files leave out. -/
def fillDefaults (defaultEntry : Entry) (name : Bytes) (entry : Entry) : Entry :=
  if name = thisDirName then entry
  else if entry.kind = .file then takeFromEntry defaultEntry entry
  else entry

def resolveToDefaults (entries : EntriesHash) : Except SvnError EntriesHash :=
  match entries.lookup thisDirName with
  | none => .error ⟨.entryNotFound, "missing default entry"⟩
  | some defaultEntry =>
      if defaultEntry.revision = invalidRevnum then
        .error ⟨.entryMissingRevision, "default entry has no revision number"⟩
      else if defaultEntry.url = none then .error ⟨.entryMissingUrl, "default entry missing url"⟩
      else .ok (mapEntries (fillDefaults defaultEntry) entries)

def entriesRead (file : List Atts) : Except SvnError EntriesHash := do
  resolveToDefaults (← file.foldlM (handleStartTag format) ∅)

end Reading

section Writing

variable (format : TimeFormat)

/-- A kind that is not known is written as a file. -/
def kindAtt : NodeKind → Option Bytes
  | .dir => some dirStr
  | .none => none
  | .file | .unknown => some fileStr

def scheduleAtt : Schedule → Option Bytes
  | .add => some addStr
  | .delete => some deleteStr
  | .replace => some replaceStr
  | .normal => none

def revAtt (revision : Int64) : Option Bytes :=
  if isValidRevnum revision then some (putLong revision) else none

def timeAtt (time : Int64) : Option Bytes := if time ≠ 0 then some (format.toNts time) else none

/-- All that is known about an entry. -/
def entryAtts (entry : Entry) (name : Bytes) : Atts where
  name := some name
  revision := revAtt entry.revision
  url := entry.url
  kind := kindAtt entry.kind
  schedule := scheduleAtt entry.schedule
  copied := if entry.copied then some trueStr else none
  copyfromUrl := entry.copyfromUrl
  copyfromRev := revAtt entry.copyfromRev
  conflictOld := entry.conflictOld
  conflictNew := entry.conflictNew
  conflictWrk := entry.conflictWrk
  prejfile := entry.prejfile
  textTime := timeAtt format entry.textTime
  propTime := timeAtt format entry.propTime
  cmtRev := revAtt entry.cmtRev
  cmtDate := timeAtt format entry.cmtDate
  cmtAuthor := entry.cmtAuthor

/-- What can be derived from the directory's own entry is removed. The name `.` aborts, and so does
a url that would be compared with a missing one. -/
def writeEntry (entry : Entry) (name : Bytes) (thisDir : Entry) : Except SvnError Atts :=
  let atts := entryAtts format entry name
  if name = thisDirName then .ok atts
  else if name = [46] then .error SvnError.assertion
  else if entry.kind = .dir then .ok { atts with revision := none, url := none }
  else
    let atts := if entry.revision = thisDir.revision then { atts with revision := none } else atts
    match entry.url, thisDir.url with
    | none, _ => .ok atts
    | some _, none => .error SvnError.undefinedBehaviour
    | some url, some thisPath =>
        .ok (if addComponent thisPath name = url then { atts with url := none } else atts)

/-- The directory's own entry comes first. -/
def entriesWrite (path : Bytes) (entries : EntriesHash) : Except SvnError (List Atts) :=
  match entries.lookup thisDirName with
  | none => .error ⟨.entryNotFound, "No default entry in directory `" ++ text path ++ "'"⟩
  | some thisDir => do
      let first ← writeEntry format thisDir thisDirName thisDir
      let rest ← (entries.entries.filter fun entry => entry.1 ≠ thisDirName).mapM fun entry =>
        writeEntry format entry.2 entry.1 thisDir
      return first :: rest

end Writing

section Modifying

variable (format : TimeFormat)

/-- The fields of the flags, before the defaults are absorbed. -/
def mergeFields (flags : ModifyFlags) (entry cur : Entry) : Entry where
  name := cur.name
  revision := if flags.revision then entry.revision else cur.revision
  url := if flags.url then entry.url else cur.url
  kind := if flags.kind then entry.kind else cur.kind
  schedule := if flags.schedule then entry.schedule else cur.schedule
  copied := if flags.copied then entry.copied else cur.copied
  copyfromUrl := if flags.copyfromUrl then entry.copyfromUrl else cur.copyfromUrl
  copyfromRev := if flags.copyfromRev then entry.copyfromRev else cur.copyfromRev
  conflictOld := if flags.conflictOld then entry.conflictOld else cur.conflictOld
  conflictNew := if flags.conflictNew then entry.conflictNew else cur.conflictNew
  conflictWrk := if flags.conflictWrk then entry.conflictWrk else cur.conflictWrk
  prejfile := if flags.prejfile then entry.prejfile else cur.prejfile
  textTime := if flags.textTime then entry.textTime else cur.textTime
  propTime := if flags.propTime then entry.propTime else cur.propTime
  cmtRev := if flags.cmtRev then entry.cmtRev else cur.cmtRev
  cmtDate := if flags.cmtDate then entry.cmtDate else cur.cmtDate
  cmtAuthor := if flags.cmtAuthor then entry.cmtAuthor else cur.cmtAuthor

/-- The current entry is changed in place, so that the directory's own entry inherits from what it
has become. A url cannot be inherited from an entry that has none. -/
def foldEntry (entries : EntriesHash) (name : Bytes) (flags : ModifyFlags) (entry : Entry) :
    Except SvnError EntriesHash :=
  let found := entries.lookup name
  let cur := mergeFields flags entry (found.getD (allocEntry name))
  if cur.kind = .dir then .ok (entries.insert name cur)
  else
    let default := if name = thisDirName ∧ found.isSome then some cur else entries.lookup thisDirName
    match default with
    | none => .ok (entries.insert name cur)
    | some default =>
        if inheritsUrl cur ∧ default.url = none then .error SvnError.undefinedBehaviour
        else .ok (entries.insert name (takeFromEntry default cur))

def scheduleConflict (message : String) : SvnError :=
  ⟨.wcScheduleConflict, "fold_state_changes: " ++ message⟩

/-- The request may be withdrawn, changed, or carried out at once by removing the entry. -/
def foldScheduling (entries : EntriesHash) (name : Bytes) (flags : ModifyFlags)
    (schedule : Schedule) : Except SvnError (EntriesHash × ModifyFlags × Schedule) :=
  let kept := (entries, flags, schedule)
  let withdrawn := (entries, { flags with schedule := false }, schedule)
  if flags.schedule = false then .ok kept
  else if flags.force then .ok kept
  else
    match entries.lookup name with
    | none =>
        if schedule = .add then .ok kept
        else .error (scheduleConflict ("'" ++ text name ++ "' is not a versioned resource"))
    | some entry =>
        match entries.lookup thisDirName with
        | none => .error SvnError.undefinedBehaviour
        | some thisDirEntry =>
            if name ≠ thisDirName ∧ thisDirEntry.schedule = .delete ∧ schedule = .add then
              .error (scheduleConflict ("Can't add '" ++ text name ++
                "' to deleted directory--try undeleting its parent directory first"))
            else if name ≠ thisDirName ∧ thisDirEntry.schedule = .delete ∧ schedule = .replace then
              .error (scheduleConflict ("Can't replace '" ++ text name ++
                "' in deleted directory--try undeleting its parent directory first"))
            else
              match entry.schedule, schedule with
              | .normal, .normal => .ok withdrawn
              | .normal, .delete | .normal, .replace => .ok kept
              | .normal, .add => .error (scheduleConflict ("Entry '" ++ text name ++
                  "' already under revision control"))
              | .add, .normal | .add, .add | .add, .replace => .ok withdrawn
              | .add, .delete =>
                  if name = thisDirName then .error SvnError.assertion
                  else .ok (entries.erase name, flags, schedule)
              | .delete, .normal | .delete, .delete => .ok withdrawn
              | .delete, .add => .ok (entries, flags, .replace)
              | .delete, .replace => .ok kept
              | .replace, .normal | .replace, .add | .replace, .replace => .ok withdrawn
              | .replace, .delete => .ok kept

/-- An entry that the scheduling has removed is not made again. -/
def modifyEntries (entries : EntriesHash) (name : Bytes) (entry : Entry) (flags : ModifyFlags) :
    Except SvnError EntriesHash :=
  if flags.schedule then
    match foldScheduling entries name flags entry.schedule with
    | .error error => .error error
    | .ok (scheduled, flags, schedule) =>
        if (entries.lookup name).isSome ∧ scheduled.lookup name = none then .ok scheduled
        else foldEntry scheduled name flags { entry with schedule := schedule }
  else foldEntry entries name flags entry

/-- The new file. Without a name, the directory's own entry is modified. -/
def entryModify (path : Bytes) (file : List Atts) (name : Option Bytes) (entry : Entry)
    (flags : ModifyFlags) : Except SvnError (List Atts) := do
  let entries ← entriesRead format file
  let entries ← modifyEntries entries (name.getD thisDirName) entry flags
  entriesWrite format path entries

def tweakEntry (entries : EntriesHash) (name : Bytes) (newUrl : Option Bytes) (newRev : Int64) :
    Except SvnError EntriesHash :=
  match entries.lookup name with
  | none => .error ⟨.entryNotFound, "No such entry: '" ++ text name ++ "'"⟩
  | some entry =>
      let entry := match newUrl with
        | some url => { entry with url := some url }
        | none => entry
      .ok (entries.insert name
        (if isValidRevnum newRev ∧ entry.schedule ≠ .add ∧ entry.schedule ≠ .replace then
          { entry with revision := newRev } else entry))

end Modifying

end Subversion.Wc
