/-
This file models what a commit does to one versioned file, and shows that a later edit never survives it.
-/

import Subversion.Wc.EntriesRoundTrip

namespace Subversion.Wc

open Delta Subr

/-- A file with the time at which it was last written. -/
structure Stamped where
  contents : Bytes
  time : Int64
  deriving DecidableEq

/-- The disk as far as one versioned file is concerned. The clock gives the next time of a write. -/
structure FileArea where
  entries : List Atts
  working : Option Stamped
  tmpTextBase : Option Stamped
  textBase : Option Bytes
  props : Option Stamped
  tmpProps : Option Stamped
  propBase : Option Bytes
  wcprops : Option Bytes
  clock : Int64

/-- Line ends and keywords, according to the properties of the file and, for the values of the
keywords, to its entry. -/
structure Translator where
  contract : Option Stamped → Bytes → Except SvnError Bytes
  expand : Option Stamped → Entry → Bytes → Except SvnError Bytes

def FileArea.stamp (area : FileArea) (contents : Bytes) : Stamped := ⟨contents, area.clock⟩

def FileArea.writeWorking (area : FileArea) (contents : Bytes) : FileArea :=
  { area with working := some (area.stamp contents), clock := area.clock + 1 }

def missingFile : SvnError := ⟨.apr, "apr_file_open failed"⟩

/-- The name of a file below the administrative directory, as messages give it. -/
def admText (path : Bytes) (below : String) : String := text path ++ "/.svn/" ++ below

def badAdmLog (message : String) : SvnError := ⟨.wcBadAdmLog, message⟩

section Commit

variable (translator : Translator) (format : TimeFormat)

/-- A copy of the working file, with its translation undone, is what the commit sends. -/
def transmitTextDeltas (area : FileArea) : Except SvnError FileArea :=
  match area.working with
  | none => .error missingFile
  | some working => do
      let contents ← translator.contract area.props working.contents
      return { area with tmpTextBase := some (area.stamp contents), clock := area.clock + 1 }

/-- Says whether the versioned file is modified. -/
def versionedFileModcheck (area : FileArea) (base : Bytes) : Except SvnError Bool :=
  match area.working with
  | none => .error missingFile
  | some working => do
      let contents ← translator.contract area.props working.contents
      return decide (contents ≠ base)

/-- The working file is replaced if it differs from the translation of the committed text. -/
def replaceTextBase (entry : Entry) (area : FileArea) : Except SvnError FileArea :=
  match area.tmpTextBase with
  | none => .ok area
  | some tmp => do
      let contents ← translator.expand area.props entry tmp.contents
      match area.working with
      | none => .error missingFile
      | some working =>
          let area := if contents = working.contents then area else area.writeWorking contents
          return { area with textBase := some tmp.contents, tmpTextBase := none }

/-- The result of the check is taken for its opposite: a modified working file lends its time. -/
def installText (entry : Entry) (path name : Bytes) (area : FileArea) :
    Except SvnError (Int64 × FileArea) :=
  match area.tmpTextBase with
  | none => .ok (0, area)
  | some tmp =>
      match versionedFileModcheck translator area tmp.contents, area.working with
      | .ok same, some working =>
          let textTime := if same then working.time else tmp.time
          match replaceTextBase translator entry area with
          | .ok area => .ok (textTime, area)
          | .error _ => .error (badAdmLog ("error replacing text-base: " ++ text name))
      | _, _ => .error (badAdmLog ("error comparing `" ++ text (addComponent path name) ++ "' and `" ++
          admText path ("tmp/text-base/" ++ text name ++ ".svn-base") ++ "'"))

/-- Here the comparison has the sense of its name. -/
def installProps (path name : Bytes) (area : FileArea) : Except SvnError (Int64 × FileArea) :=
  match area.tmpProps with
  | none => .ok (0, area)
  | some tmp =>
      match area.props with
      | none => .error (badAdmLog ("error comparing `" ++ admText path ("props/" ++ text name) ++
          "' and `" ++ admText path ("tmp/props/" ++ text name) ++ "'"))
      | some props =>
          .ok (if props.contents = tmp.contents then props.time else tmp.time,
            { area with propBase := some tmp.contents, tmpProps := none })

/-- The working file stays. -/
def removeFromRevisionControl (path name : Bytes) (area : FileArea) : Except SvnError FileArea := do
  let entries ← entriesRead format area.entries
  let file ← entriesWrite format path (entries.erase name)
  return { area with
    entries := file, textBase := none, props := none, propBase := none, wcprops := none }

def committedFlags : ModifyFlags where
  revision := true
  url := false
  kind := false
  textTime := true
  propTime := true
  schedule := true
  copied := true
  copyfromUrl := true
  copyfromRev := true
  conflictOld := true
  conflictNew := true
  conflictWrk := true
  prejfile := true
  cmtRev := false
  cmtDate := false
  cmtAuthor := false
  force := true

def committedEntry (entry : Entry) (revision textTime propTime : Int64) : Entry :=
  { entry with
    revision := revision
    kind := .file
    schedule := .normal
    copied := false
    textTime := textTime
    propTime := propTime
    conflictOld := none
    conflictNew := none
    conflictWrk := none
    prejfile := none
    copyfromUrl := none
    copyfromRev := invalidRevnum }

/-- The command for a file. The directory's own entry is not a file's. -/
def logDoCommitted (path name : Bytes) (revision : Option Bytes) (area : FileArea) :
    Except SvnError FileArea :=
  match revision with
  | none => .error (badAdmLog ("missing revision attr for " ++ text name))
  | some revision => do
      let entries ← entriesRead format area.entries
      match entries.lookup name with
      | none => .error (badAdmLog ("log command for dir '" ++ text name ++ "' is mislocated"))
      | some entry =>
          if entry.kind ≠ .file then
            .error (badAdmLog ("log command for dir '" ++ text name ++ "' is mislocated"))
          else if entry.schedule = .delete then removeFromRevisionControl format path name area
          else do
            let (textTime, area) ← installText translator entry path name area
            let (propTime, area) ← installProps path name area
            match entryModify format path area.entries (some name)
                (committedEntry entry (atol revision) textTime propTime) committedFlags with
            | .ok file => .ok { area with entries := file }
            | .error _ => .error (badAdmLog ("error modifying entry: " ++ text name))

/-- The time on the disk goes through the text of a time, as the time of the entry did. -/
def timestampsEqualP (name : Bytes) (working : Stamped) (area : FileArea) : Except SvnError Bool := do
  let entries ← entriesRead format area.entries
  match entries.lookup name with
  | none => .error ⟨.entryNotFound, "timestamps_equal_p: `" ++ text name ++
      "' not under revision control"⟩
  | some entry =>
      return decide (entry.textTime ≠ 0 ∧
        format.fromNts (format.toNts working.time) = entry.textTime)

def textModifiedP (name : Bytes) (area : FileArea) : Except SvnError Bool :=
  match area.working with
  | none => .ok false
  | some working => do
      let equalTimestamps ← timestampsEqualP format name working area
      if equalTimestamps then return false
      else
        match area.textBase with
        | none => return true
        | some base => versionedFileModcheck translator area base

end Commit

/-- What is asked of the area after a commit during which the user has written the given contents. -/
structure EditSurvives (translator : Translator) (format : TimeFormat) (name contents committed : Bytes)
    (after : FileArea) : Prop where
  working : ∃ time, after.working = some ⟨contents, time⟩
  textBase : after.textBase = some committed
  stamp : ∀ entries entry working, entriesRead format after.entries = .ok entries →
    entries.lookup name = some entry → after.working = some working → entry.textTime ≠ working.time
  modified : textModifiedP translator format name after = .ok true

section Steps

variable {translator : Translator} {format : TimeFormat}

theorem transmitTextDeltas_eq_ok {area sent : FileArea}
    (transmitted : transmitTextDeltas translator area = .ok sent) :
    ∃ committed, sent = { area with tmpTextBase := some committed, clock := area.clock + 1 } := by
  rw [transmitTextDeltas] at transmitted
  split at transmitted
  · cases transmitted
  · next working present =>
      obtain ⟨contents, contracted, done⟩ := bind_eq_ok transmitted
      cases done
      exact ⟨area.stamp contents, rfl⟩

/-- The edits of the user touch the working file and the clock. -/
theorem foldl_writeWorking (edits : List Bytes) :
    ∀ area : FileArea, ∃ working clock,
      edits.foldl FileArea.writeWorking area = { area with working := working, clock := clock } ∧
        ∀ last, edits.getLast? = some last → ∃ time, working = some ⟨last, time⟩ := by
  induction edits with
  | nil => exact fun area => ⟨area.working, area.clock, rfl, fun last none => by cases none⟩
  | cons contents edits ih =>
      intro area
      obtain ⟨working, clock, folded, isLast⟩ := ih (area.writeWorking contents)
      refine ⟨working, clock, folded, ?_⟩
      intro last found
      cases edits with
      | nil =>
          cases found
          cases folded
          exact ⟨area.clock, rfl⟩
      | cons next rest =>
          rw [List.getLast?_cons_cons] at found
          exact isLast last found

end Steps

section Recorded

variable {format : TimeFormat}

theorem foldEntry_eq_ok {entries folded : EntriesHash} {name : Bytes} {flags : ModifyFlags}
    {entry : Entry} (timed : flags.textTime = true)
    (folding : foldEntry entries name flags entry = .ok folded) :
    ∃ now, folded = entries.insert name now ∧ now.textTime = entry.textTime := by
  have merged : (mergedEntry entries name flags entry).textTime = entry.textTime := by
    simp [mergedEntry, mergeFields, timed]
  obtain ⟨now, rfl, rfl | ⟨default, -, rfl⟩⟩ := foldEntry_cases folding
  · exact ⟨_, rfl, merged⟩
  · exact ⟨_, rfl, merged⟩

theorem modifyEntries_eq_ok {entries modified : EntriesHash} {name : Bytes} {flags : ModifyFlags}
    {entry : Entry} (timed : flags.textTime = true) (forced : flags.force = true)
    (modification : modifyEntries entries name entry flags = .ok modified) :
    ∃ now, modified = entries.insert name now ∧ now.textTime = entry.textTime := by
  rw [modifyEntries] at modification
  split at modification
  · next scheduled =>
      have kept : foldScheduling entries name flags entry.schedule =
          .ok (entries, flags, entry.schedule) := by
        simp [foldScheduling, scheduled, forced]
      rw [kept] at modification
      simp only at modification
      split at modification
      · next gone => simp [gone.2] at gone
      · exact foldEntry_eq_ok timed modification
  · exact foldEntry_eq_ok timed modification

theorem resolvedEntry_textTime (thisDir : Entry) (name : Bytes) (entry : Entry) :
    (resolvedEntry thisDir name entry).textTime = entry.textTime := by
  rw [resolvedEntry, fillDefaults]
  split
  · rfl
  · split <;> rfl

/-- A time that is set in an entry is found there when the file is read again. -/
theorem entryModify_records {path name : Bytes} {file modified : List Atts} {entry : Entry}
    {flags : ModifyFlags} {back : EntriesHash} (other : name ≠ thisDirName)
    (timed : flags.textTime = true) (forced : flags.force = true)
    (modification : entryModify format path file (some name) entry flags = .ok modified)
    (read : entriesRead format modified = .ok back) :
    ∃ now, back.lookup name = some now ∧ now.textTime = entry.textTime := by
  obtain ⟨entries, before, rest⟩ := bind_eq_ok modification
  obtain ⟨changed, change, written⟩ := bind_eq_ok rest
  obtain ⟨thisDir, found, -, hasUrl⟩ := entriesRead_thisDir before
  obtain ⟨now, rfl, time⟩ := modifyEntries_eq_ok timed forced change
  have stillFound : (entries.insert name now).lookup thisDirName = some thisDir := by
    rw [AList.lookup_insert_ne other.symm, found]
  obtain ⟨-, rfl⟩ := (entriesWrite_eq_ok_iff format path stillFound hasUrl _).mp written
  have valid := valid_of_entriesRead_written stillFound read
  obtain ⟨again, reread, lookups⟩ := entriesRead_written format stillFound hasUrl valid
  rw [read] at reread
  cases reread
  refine ⟨resolvedEntry thisDir name now, ?_, ?_⟩
  · rw [lookups, AList.lookup_insert, Option.map_some]
  · rw [resolvedEntry_textTime, time]

end Recorded

section Outcome

variable {translator : Translator} {format : TimeFormat}

/-- What the installation of the committed text leaves behind. -/
structure TextInstalled (translator : Translator) (area : FileArea) (tmp working : Stamped)
    (textTime : Int64) (after : FileArea) : Prop where
  present : area.working = some working
  time : ∃ contracted, translator.contract area.props working.contents = .ok contracted ∧
    textTime = if contracted ≠ tmp.contents then working.time else tmp.time
  textBase : after.textBase = some tmp.contents
  props : after.props = area.props
  replaced : after.working = some working ∨
    ∃ file, after.working = some file ∧ file.contents ≠ working.contents

theorem installText_eq_ok {entry : Entry} {path name : Bytes} {area after : FileArea}
    {tmp : Stamped} {textTime : Int64} (copied : area.tmpTextBase = some tmp)
    (installed : installText translator entry path name area = .ok (textTime, after)) :
    ∃ working, TextInstalled translator area tmp working textTime after := by
  simp only [installText, copied] at installed
  split at installed
  · next same working checked present =>
      refine ⟨working, ?_⟩
      simp only [versionedFileModcheck, present] at checked
      obtain ⟨contracted, contraction, decided⟩ := bind_eq_ok checked
      cases decided
      split at installed
      · next replaced replacement =>
          cases installed
          simp only [replaceTextBase, copied, present] at replacement
          obtain ⟨expanded, -, done⟩ := bind_eq_ok replacement
          cases done
          refine ⟨present, ⟨contracted, contraction, by simp⟩, ?_, ?_, ?_⟩
          · rfl
          · simp only
            split <;> rfl
          · simp only
            split
            · exact .inl present
            · next differs => exact .inr ⟨_, rfl, differs⟩
      · cases installed
  · cases installed

theorem installProps_eq_ok {path name : Bytes} {area after : FileArea} {propTime : Int64}
    (installed : installProps path name area = .ok (propTime, after)) :
    after.working = area.working ∧ after.textBase = area.textBase ∧ after.props = area.props := by
  rw [installProps] at installed
  split at installed
  · cases installed
    exact ⟨rfl, rfl, rfl⟩
  · split at installed
    · cases installed
    · cases installed
      exact ⟨rfl, rfl, rfl⟩

/-- What the command leaves behind, unless it takes the file out of version control. -/
theorem logDoCommitted_eq_ok {path name : Bytes} {revision : Option Bytes} {area after : FileArea}
    {tmp : Stamped} (done : logDoCommitted translator format path name revision area = .ok after)
    (copied : area.tmpTextBase = some tmp) (other : name ≠ thisDirName) :
    after.textBase = none ∨ ∃ working textTime, TextInstalled translator area tmp working textTime after ∧
      ∀ entries, entriesRead format after.entries = .ok entries →
        ∃ entry, entries.lookup name = some entry ∧ entry.textTime = textTime := by
  rw [logDoCommitted.eq_def] at done
  split at done
  · cases done
  · obtain ⟨entries, read, rest⟩ := bind_eq_ok done
    split at rest
    · cases rest
    · next entry found =>
        split at rest
        · cases rest
        · split at rest
          · left
            obtain ⟨again, -, erased⟩ := bind_eq_ok rest
            obtain ⟨file, -, removed⟩ := bind_eq_ok erased
            cases removed
            rfl
          · right
            obtain ⟨⟨textTime, texted⟩, textInstalled, rest⟩ := bind_eq_ok rest
            obtain ⟨⟨propTime, propped⟩, propsInstalled, rest⟩ := bind_eq_ok rest
            obtain ⟨working, outcome⟩ := installText_eq_ok copied textInstalled
            obtain ⟨sameWorking, sameBase, sameProps⟩ := installProps_eq_ok propsInstalled
            simp only at rest
            split at rest
            · next file modified =>
                cases rest
                refine ⟨working, textTime, ⟨outcome.present, outcome.time, ?_, ?_, ?_⟩, ?_⟩
                · rw [← outcome.textBase]
                  exact sameBase
                · rw [← outcome.props]
                  exact sameProps
                · have replaced := outcome.replaced
                  rw [← sameWorking] at replaced
                  exact replaced
                · intro now reread
                  exact entryModify_records other rfl rfl modified reread
            · cases rest

/-- A check that finds the same text says that the file is not modified. -/
theorem textModifiedP_eq_false {name contracted : Bytes} {area : FileArea} {working : Stamped}
    (present : area.working = some working) (base : area.textBase = some contracted)
    (contraction : translator.contract area.props working.contents = .ok contracted) :
    textModifiedP translator format name area ≠ .ok true := by
  intro modified
  rw [textModifiedP, present] at modified
  obtain ⟨equal, -, rest⟩ := bind_eq_ok modified
  split at rest
  · cases rest
  · rw [base] at rest
    simp only [versionedFileModcheck, present, contraction] at rest
    change Except.ok (decide (contracted ≠ contracted)) = .ok true at rest
    simp at rest

/-- The entries may have been changed by earlier commands of the log. -/
theorem edit_never_survives_commit (translator : Translator) (format : TimeFormat)
    (path name : Bytes) (revision : Option Bytes) (area sent : FileArea) (edits : List Bytes)
    (contents : Bytes) (entriesThen : List Atts) (other : name ≠ thisDirName)
    (edited : edits.getLast? = some contents)
    (transmitted : transmitTextDeltas translator area = .ok sent) :
    ∃ committed, sent.tmpTextBase = some committed ∧
      ∀ after, logDoCommitted translator format path name revision
        { edits.foldl FileArea.writeWorking sent with entries := entriesThen } = .ok after →
        ¬ EditSurvives translator format name contents committed.contents after := by
  obtain ⟨committed, rfl⟩ := transmitTextDeltas_eq_ok transmitted
  refine ⟨committed, rfl, ?_⟩
  intro after done survives
  generalize copiedArea : ({ area with
    tmpTextBase := some committed, clock := area.clock + 1 } : FileArea) = sent at done
  have copied : sent.tmpTextBase = some committed := by rw [← copiedArea]
  obtain ⟨working, clock, folded, isLast⟩ := foldl_writeWorking edits sent
  obtain ⟨editTime, rfl⟩ := isLast contents edited
  rw [folded] at done
  rcases logDoCommitted_eq_ok done copied other with removed | ⟨found, textTime, installed, recorded⟩
  · rw [survives.textBase] at removed
    cases removed
  · cases installed.present
    have kept : after.working = some ⟨contents, editTime⟩ := by
      rcases installed.replaced with same | ⟨file, present, differs⟩
      · exact same
      · obtain ⟨time, held⟩ := survives.working
        rw [present] at held
        cases held
        exact absurd rfl differs
    obtain ⟨contracted, contraction, time⟩ := installed.time
    by_cases modified : contracted ≠ committed.contents
    · rw [if_pos modified] at time
      have asked := survives.modified
      rw [textModifiedP, kept] at asked
      obtain ⟨equal, comparison, -⟩ := bind_eq_ok asked
      obtain ⟨entries, read, -⟩ := bind_eq_ok comparison
      obtain ⟨entry, lookup, stamped⟩ := recorded entries read
      exact survives.stamp entries entry _ read lookup kept (by rw [stamped, time])
    · rw [not_not] at modified
      subst modified
      have same := contraction
      rw [← installed.props] at same
      exact textModifiedP_eq_false kept installed.textBase same survives.modified

/-- No property asks for a translation. -/
def plainTranslator : Translator where
  contract := fun _ contents => .ok contents
  expand := fun _ _ contents => .ok contents

/-- A file whose text is about to be committed. -/
def modifiedArea : FileArea where
  entries := [directoryAtts, fileAtts]
  working := some ⟨[97], 5⟩
  tmpTextBase := none
  textBase := some [98]
  props := none
  tmpProps := none
  propBase := none
  wcprops := none
  clock := 10

def sentArea : FileArea := { modifiedArea with tmpTextBase := some ⟨[97], 10⟩, clock := 11 }

theorem edit_never_survives_commit_plain :
    ∃ committed, sentArea.tmpTextBase = some committed ∧
      ∀ after, logDoCommitted plainTranslator decimalTime [] [102] (some [52])
        { [[99]].foldl FileArea.writeWorking sentArea with entries := [directoryAtts, fileAtts] } =
          .ok after →
        ¬ EditSurvives plainTranslator decimalTime [102] [99] committed.contents after :=
  edit_never_survives_commit plainTranslator decimalTime [] [102] (some [52]) modifiedArea sentArea
    [[99]] [99] [directoryAtts, fileAtts] (by decide) rfl rfl

/-- The committed text replaces what the user has written in the meantime. -/
theorem edit_is_overwritten :
    transmitTextDeltas plainTranslator modifiedArea = .ok sentArea ∧
      ∃ after, logDoCommitted plainTranslator decimalTime [] [102] (some [52])
          (sentArea.writeWorking [99]) = .ok after ∧
        after.working = some ⟨[97], 12⟩ ∧
        ¬ EditSurvives plainTranslator decimalTime [102] [99] [97] after := by
  refine ⟨rfl, _, rfl, rfl, ?_⟩
  intro survives
  obtain ⟨time, held⟩ := survives.working
  cases held

end Outcome

end Subversion.Wc
