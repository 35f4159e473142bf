/-
This file shows what a sequence of requests to modify entries keeps in the entries file of a directory.
-/

import Subversion.Lib.GuardedRuns
import Subversion.Wc.EntriesRoundTrip

namespace Subversion.Wc

open Delta Subr GuardedRuns

/-- The entries file. If not all of it was written, the parser does not come to its end. -/
inductive EntriesFile where
  | whole (atts : List Atts)
  | truncated

/-- The operations on files that do not succeed during one call. -/
structure Failures where
  reading : Bool
  opening : Bool
  writing : Bool
  closing : Bool
  unprotecting : Bool
  moving : Bool
  protecting : Bool

/-- One call to modify an entry. -/
structure Call where
  name : Option Bytes
  entry : Entry
  flags : ModifyFlags
  failures : Failures

def aprError (message : String) : SvnError := ⟨.apr, message⟩

/-- The temporary file becomes the file. -/
def closeAdmFile (failures : Failures) (path : Bytes) (file tmp : EntriesFile) :
    EntriesFile × Except SvnError Unit :=
  let admPath := text path ++ "/.svn/entries"
  let tmpPath := text path ++ "/.svn/tmp/entries"
  if failures.closing = true then (file, .error (aprError (text path)))
  else if failures.unprotecting = true then
    (file, .error (aprError ("failed to set file '" ++ admPath ++ "' read-write")))
  else if failures.moving = true then
    (file, .error (aprError ("error renaming " ++ tmpPath ++ " to " ++ text path)))
  else if failures.protecting = true then
    (tmp, .error (aprError ("failed to set file '" ++ admPath ++ "' read-only")))
  else (tmp, .ok ())

/-- The temporary file is closed and renamed even if not all of it was written. -/
def saveEntries (failures : Failures) (path : Bytes) (file : EntriesFile) (atts : List Atts) :
    EntriesFile × Except SvnError Unit :=
  if failures.opening = true then (file, .error (aprError (text path ++ "/.svn/tmp/entries")))
  else if failures.writing = true then
    ((closeAdmFile failures path file .truncated).1,
      .error (aprError ("svn_wc__entries_write: " ++ text path)))
  else closeAdmFile failures path file (.whole atts)

/-- The entries are read, modified and saved. -/
def svnWcEntryModify (format : TimeFormat) (path : Bytes) (file : EntriesFile) (call : Call) :
    EntriesFile × Except SvnError Unit :=
  if call.failures.reading = true then (file, .error (aprError "read_entries: apr_file_read_full choked"))
  else
    match file with
    | .truncated =>
        (file, .error ⟨.malformedXml, "read_entries: xml parser failed (" ++ text path ++ ")."⟩)
    | .whole atts =>
        match entryModify format path atts call.name call.entry call.flags with
        | .error error => (file, .error error)
        | .ok written => saveEntries call.failures path file written

/-- The file after one call. -/
def step (format : TimeFormat) (path : Bytes) (file : EntriesFile) (call : Call) : EntriesFile :=
  (svnWcEntryModify format path file call).1

def Reads (format : TimeFormat) (file : EntriesFile) (entries : EntriesHash) : Prop :=
  ∃ atts, file = .whole atts ∧ entriesRead format atts = .ok entries

/-- There is an entry of that name in the file. -/
def Lists (file : EntriesFile) (name : Bytes) : Prop :=
  ∃ atts, file = .whole atts ∧ ∃ entry ∈ atts, entry.name.getD thisDirName = name

def ToBeAdded (entry : Entry) : Prop := entry.schedule = .add ∨ entry.schedule = .replace

/-- What one call has to keep. -/
structure KeepsEntries (format : TimeFormat) (path : Bytes) (file : EntriesFile) (call : Call) : Prop where
  failed : ∀ error, (svnWcEntryModify format path file call).2 = .error error →
    step format path file call = file
  thisDir : Lists file thisDirName → Lists (step format path file call) thisDirName
  removed : ∀ entries entry, Reads format file entries →
    entries.lookup (call.name.getD thisDirName) = some entry → entry.schedule = .add →
    call.flags.schedule = true → call.entry.schedule = .delete →
    (svnWcEntryModify format path file call).2 = .ok () →
    ¬ Lists (step format path file call) (call.name.getD thisDirName)
  deleted : ∀ entries thisDir after, Reads format file entries →
    entries.lookup thisDirName = some thisDir → thisDir.schedule = .delete →
    Reads format (step format path file call) after →
    ∀ name entry, name ≠ thisDirName → after.lookup name = some entry → ToBeAdded entry →
      ∃ before, entries.lookup name = some before ∧ ToBeAdded before

/-- The temporary file is renamed. -/
def Failures.Renames (failures : Failures) : Prop :=
  failures.opening = false ∧ failures.closing = false ∧ failures.unprotecting = false ∧
    failures.moving = false

/-- A file that is renamed was written, and it can be protected. In a directory that is scheduled for
deletion, nothing new is added. -/
structure Harmless (format : TimeFormat) (file : EntriesFile) (call : Call) : Prop where
  whole : call.failures.Renames → call.failures.writing = false ∧ call.failures.protecting = false
  known : ∀ entries thisDir, Reads format file entries → entries.lookup thisDirName = some thisDir →
    thisDir.schedule = .delete → call.flags.schedule = true → call.entry.schedule = .add →
    entries.lookup (call.name.getD thisDirName) ≠ none

section Files

variable {format : TimeFormat} {path : Bytes} {file : EntriesFile} {call : Call}

/-- A harmless save either fails and leaves the file, or has the new file. -/
theorem saveEntries_cases {failures : Failures}
    (whole : failures.Renames → failures.writing = false ∧ failures.protecting = false)
    (path : Bytes) (file : EntriesFile) (atts : List Atts) :
    (∃ error, saveEntries failures path file atts = (file, .error error)) ∨
      saveEntries failures path file atts = (.whole atts, .ok ()) := by
  rw [saveEntries]
  by_cases opening : failures.opening = true
  · rw [if_pos opening]
    exact .inl ⟨_, rfl⟩
  · rw [if_neg opening]
    have closes (tmp : EntriesFile) : (∃ error, closeAdmFile failures path file tmp = (file, .error error)) ∨
        failures.Renames := by
      rw [closeAdmFile]
      by_cases closing : failures.closing = true
      · rw [if_pos closing]
        exact .inl ⟨_, rfl⟩
      by_cases unprotecting : failures.unprotecting = true
      · rw [if_neg closing, if_pos unprotecting]
        exact .inl ⟨_, rfl⟩
      by_cases moving : failures.moving = true
      · rw [if_neg closing, if_neg unprotecting, if_pos moving]
        exact .inl ⟨_, rfl⟩
      · exact .inr ⟨by simpa using opening, by simpa using closing, by simpa using unprotecting,
          by simpa using moving⟩
    rcases closes (if failures.writing = true then .truncated else .whole atts) with
      ⟨error, stays⟩ | renames
    · by_cases writing : failures.writing = true
      · rw [if_pos writing] at stays ⊢
        rw [stays]
        exact .inl ⟨_, rfl⟩
      · rw [if_neg writing] at stays ⊢
        exact .inl ⟨error, stays⟩
    · obtain ⟨written, safe⟩ := whole renames
      obtain ⟨-, closing, unprotecting, moving⟩ := renames
      rw [written, if_neg (by simp), closeAdmFile, closing, unprotecting, moving, safe]
      exact .inr rfl

/-- After a write that fails, the part that was written still takes the place of the file. -/
theorem saveEntries_short {failures : Failures} (renames : failures.Renames)
    (short : failures.writing = true) (path : Bytes) (file : EntriesFile) (atts : List Atts) :
    (saveEntries failures path file atts).1 = .truncated ∧
      ∃ error, (saveEntries failures path file atts).2 = .error error := by
  obtain ⟨opening, closing, unprotecting, moving⟩ := renames
  rw [saveEntries, opening, short, if_neg (by simp), if_pos rfl, closeAdmFile, closing, unprotecting, moving]
  cases failures.protecting <;> exact ⟨rfl, _, rfl⟩

/-- A harmless call either fails and leaves the file, or modifies the entries. -/
theorem svnWcEntryModify_cases (path : Bytes) (harmless : Harmless format file call) :
    (∃ error, svnWcEntryModify format path file call = (file, .error error)) ∨
      ∃ atts written, file = .whole atts ∧
        entryModify format path atts call.name call.entry call.flags = .ok written ∧
        svnWcEntryModify format path file call = (.whole written, .ok ()) := by
  unfold svnWcEntryModify
  by_cases reading : call.failures.reading = true
  · rw [if_pos reading]
    exact .inl ⟨_, rfl⟩
  · rw [if_neg reading]
    cases file with
    | truncated => exact .inl ⟨_, rfl⟩
    | whole atts =>
        cases modified : entryModify format path atts call.name call.entry call.flags with
        | error error =>
            dsimp only
            rw [modified]
            exact .inl ⟨error, rfl⟩
        | ok written =>
            dsimp only
            rw [modified]
            rcases saveEntries_cases harmless.whole path (.whole atts) written with
              ⟨error, failed⟩ | saved
            · exact .inl ⟨error, failed⟩
            · exact .inr ⟨atts, written, rfl, modified, saved⟩

end Files

section Entries

theorem exists_of_mem_right {α β : Type} {related : α → β → Prop} {first : List α} {second : List β}
    (all : List.Forall₂ related first second) {right : β} (member : right ∈ second) :
    ∃ left ∈ first, related left right := by
  induction all with
  | nil => cases member
  | cons head tail ih =>
      rcases List.mem_cons.mp member with rfl | later
      · exact ⟨_, List.mem_cons_self, head⟩
      · obtain ⟨left, listed, holds⟩ := ih later
        exact ⟨left, List.mem_cons_of_mem _ listed, holds⟩

variable {format : TimeFormat} {path : Bytes} {entries : EntriesHash}

theorem attsToEntry_schedule {atts : Atts} {entry : Entry} {flags : ModifyFlags}
    (converted : attsToEntry format atts = .ok (entry, flags)) :
    entry.name = atts.name.getD thisDirName ∧
      attsToSchedule entry.name atts.schedule = .ok entry.schedule := by
  obtain ⟨kind, -, rest⟩ := bind_eq_ok converted
  obtain ⟨schedule, scheduled, rest⟩ := bind_eq_ok rest
  obtain ⟨copied, -, done⟩ := bind_eq_ok rest
  cases done
  exact ⟨rfl, scheduled⟩

/-- An entry that is read comes from the attributes of its name. -/
theorem foldlM_handleStartTag_lookup (file : List Atts) :
    ∀ {before after : EntriesHash} {name : Bytes} {entry : Entry},
      file.foldlM (handleStartTag format) before = .ok after → after.lookup name = some entry →
      before.lookup name = some entry ∨
        ∃ atts ∈ file, atts.name.getD thisDirName = name ∧
          attsToSchedule name atts.schedule = .ok entry.schedule := by
  induction file with
  | nil =>
      intro before after name entry same lookup
      cases same
      exact .inl lookup
  | cons atts file ih =>
      intro before after name entry folded lookup
      rw [List.foldlM_cons] at folded
      cases handled : handleStartTag format before atts with
      | error error =>
          rw [handled] at folded
          cases folded
      | ok next =>
          rw [handled] at folded
          rcases ih folded lookup with earlier | ⟨later, member, found⟩
          · rw [handleStartTag] at handled
            cases converted : attsToEntry format atts with
            | error error =>
                rw [converted] at handled
                cases handled
            | ok result =>
                rw [converted] at handled
                cases handled
                obtain ⟨own, scheduled⟩ := attsToEntry_schedule converted
                by_cases same : name = result.1.name
                · subst same
                  rw [AList.lookup_insert] at earlier
                  cases earlier
                  exact .inr ⟨atts, List.mem_cons_self, own.symm, scheduled⟩
                · rw [AList.lookup_insert_ne same] at earlier
                  exact .inl earlier
          · exact .inr ⟨later, List.mem_cons_of_mem _ member, found⟩

theorem fillDefaults_schedule (thisDir : Entry) (name : Bytes) (entry : Entry) :
    (fillDefaults thisDir name entry).schedule = entry.schedule := by
  rw [fillDefaults]
  split
  · rfl
  · split <;> rfl

theorem entriesRead_lookup {file : List Atts} {name : Bytes} {entry : Entry}
    (read : entriesRead format file = .ok entries) (lookup : entries.lookup name = some entry) :
    ∃ atts ∈ file, atts.name.getD thisDirName = name ∧
      attsToSchedule name atts.schedule = .ok entry.schedule := by
  obtain ⟨tagged, thisDir, folded, -, -, -, rfl⟩ := entriesRead_eq_ok read
  rw [lookup_mapEntries, Option.map_eq_some_iff] at lookup
  obtain ⟨before, found, rfl⟩ := lookup
  rw [fillDefaults_schedule]
  rcases foldlM_handleStartTag_lookup file folded found with absent | found
  · simp at absent
  · exact found

theorem writeEntry_schedule {thisDir entry : Entry} {name : Bytes} {atts : Atts}
    (written : writeEntry format entry name thisDir = .ok atts) :
    atts.name = some name ∧ atts.schedule = scheduleAtt entry.schedule := by
  simp only [writeEntry] at written
  repeat' split at written
  all_goals cases written
  all_goals exact ⟨rfl, rfl⟩

/-- The file that is written begins with the directory's own entry, and it has no other entries than
the hash. -/
theorem entriesWrite_lookup {file : List Atts} (written : entriesWrite format path entries = .ok file) :
    (∃ atts ∈ file, atts.name = some thisDirName) ∧
      ∀ atts ∈ file, ∃ name entry, entries.lookup name = some entry ∧ atts.name = some name ∧
        atts.schedule = scheduleAtt entry.schedule := by
  rw [entriesWrite] at written
  cases found : entries.lookup thisDirName with
  | none =>
      rw [found] at written
      cases written
  | some thisDir =>
      rw [found] at written
      dsimp only at written
      cases head : writeEntry format thisDir thisDirName thisDir with
      | error error =>
          rw [head] at written
          cases written
      | ok first =>
          rw [head] at written
          cases tail : (entries.entries.filter fun entry => entry.1 ≠ thisDirName).mapM fun entry =>
              writeEntry format entry.2 entry.1 thisDir with
          | error error =>
              rw [tail] at written
              cases written
          | ok rest =>
              rw [tail] at written
              cases written
              obtain ⟨own, scheduled⟩ := writeEntry_schedule head
              refine ⟨⟨first, List.mem_cons_self, own⟩, ?_⟩
              intro atts member
              rcases List.mem_cons.mp member with rfl | member
              · exact ⟨thisDirName, thisDir, found, own, scheduled⟩
              · rw [mapM_eq_ok_iff] at tail
                obtain ⟨entry, listed, written⟩ := exists_of_mem_right tail member
                obtain ⟨own, scheduled⟩ := writeEntry_schedule written
                exact ⟨entry.1, entry.2, AList.mem_lookup_iff.mpr (List.mem_filter.mp listed).1, own,
                  scheduled⟩

/-- A file that is written and read has the schedules of the hash. -/
theorem written_schedule {file : List Atts} {after : EntriesHash} {name : Bytes} {entry : Entry}
    (written : entriesWrite format path entries = .ok file) (read : entriesRead format file = .ok after)
    (lookup : after.lookup name = some entry) :
    ∃ before, entries.lookup name = some before ∧ before.schedule = entry.schedule := by
  obtain ⟨atts, member, own, scheduled⟩ := entriesRead_lookup read lookup
  obtain ⟨other, before, found, otherName, same⟩ := (entriesWrite_lookup written).2 atts member
  rw [otherName, Option.getD_some] at own
  subst own
  rw [same, attsToSchedule_scheduleAtt] at scheduled
  exact ⟨before, found, Except.ok.inj scheduled⟩

theorem foldEntry_lookup {modified : EntriesHash} {name other : Bytes} {flags : ModifyFlags}
    {entry found : Entry} (folded : foldEntry entries name flags entry = .ok modified)
    (lookup : modified.lookup other = some found) :
    (other ≠ name ∧ entries.lookup other = some found) ∨
      (other = name ∧ found.schedule = (mergedEntry entries name flags entry).schedule) := by
  obtain ⟨now, rfl, absorbed⟩ := foldEntry_cases folded
  have scheduled : now.schedule = (mergedEntry entries name flags entry).schedule := by
    rcases absorbed with rfl | ⟨default, -, rfl⟩ <;> rfl
  by_cases own : other = name
  · subst own
    rw [AList.lookup_insert] at lookup
    cases lookup
    exact .inr ⟨rfl, scheduled⟩
  · rw [AList.lookup_insert_ne own] at lookup
    exact .inl ⟨own, lookup⟩

theorem mergedEntry_schedule (entries : EntriesHash) (name : Bytes) (flags : ModifyFlags) (entry : Entry) :
    (mergedEntry entries name flags entry).schedule =
      if flags.schedule = true then entry.schedule
      else ((entries.lookup name).getD (allocEntry name)).schedule := rfl

end Entries

section Requests

variable {format : TimeFormat} {path : Bytes} {entries modified : EntriesHash} {name : Bytes}
  {entry thisDir : Entry} {flags : ModifyFlags}

/-- Below a directory that is scheduled for deletion, a request to schedule an entry removes it, is
withdrawn, or deletes it. -/
theorem foldScheduling_deleted {scheduled : EntriesHash} {changed : ModifyFlags} {current : Entry}
    {schedule next : Schedule} (below : name ≠ thisDirName) (deleted : thisDir.schedule = .delete)
    (directory : entries.lookup thisDirName = some thisDir) (known : entries.lookup name = some current)
    (request : flags.schedule = true) (merges : flags.force = false)
    (folded : foldScheduling entries name flags schedule = .ok (scheduled, changed, next)) :
    scheduled = entries.erase name ∨
      (scheduled = entries ∧ (changed.schedule = false ∨ next = .delete)) := by
  simp only [foldScheduling, request, merges, known, directory, deleted, ne_eq, below,
    not_false_eq_true, true_and, Bool.true_eq_false, Bool.false_eq_true, if_false] at folded
  cases now : current.schedule <;> cases schedule <;> simp only [now, reduceCtorEq, if_true, if_false] at folded
  all_goals cases folded
  all_goals simp

/-- The schedule that results from a request. -/
def effectiveSchedule : Schedule → Schedule → Schedule
  | .normal, requested => requested
  | .add, _ => .add
  | .delete, .normal | .delete, .delete => .delete
  | .delete, .add | .delete, .replace => .replace
  | .replace, .delete => .delete
  | .replace, .normal | .replace, .add | .replace, .replace => .replace

/-- A request for a new entry is carried out. One for a known entry removes it, or has the schedule
that results from it. -/
theorem foldScheduling_cases {scheduled : EntriesHash} {changed : ModifyFlags} {schedule next : Schedule}
    (request : flags.schedule = true) (merges : flags.force = false)
    (folded : foldScheduling entries name flags schedule = .ok (scheduled, changed, next)) :
    (entries.lookup name = none ∧ scheduled = entries ∧ changed = flags ∧ next = schedule) ∨
      ∃ current, entries.lookup name = some current ∧
        ((current.schedule = .add ∧ schedule = .delete ∧ name ≠ thisDirName ∧
            scheduled = entries.erase name) ∨
          ((current.schedule = .add → schedule ≠ .delete) ∧ (current.schedule = .normal → schedule ≠ .add) ∧
            scheduled = entries ∧ ∃ takes, changed = { flags with schedule := takes } ∧
              (if takes then next else current.schedule) = effectiveSchedule current.schedule schedule)) := by
  cases known : entries.lookup name with
  | none =>
      by_cases add : schedule = .add
      · simp [foldScheduling, request, merges, known, add] at folded
        obtain ⟨rfl, rfl, rfl⟩ := folded
        exact .inl ⟨rfl, rfl, rfl, add.symm⟩
      · simp [foldScheduling, request, merges, known, add] at folded
  | some current =>
      right
      refine ⟨current, rfl, ?_⟩
      cases directory : entries.lookup thisDirName with
      | none => simp [foldScheduling, request, merges, known, directory] at folded
      | some thisDir =>
          simp only [foldScheduling, request, merges, known, directory, Bool.true_eq_false,
            Bool.false_eq_true, if_false] at folded
          split at folded
          · cases folded
          · split at folded
            · cases folded
            · have kept : flags = { flags with schedule := true } := by rw [← request]
              cases now : current.schedule <;> cases schedule <;> simp only [now] at folded
              case add.delete =>
                split at folded
                · cases folded
                · next below =>
                    cases folded
                    exact .inl ⟨rfl, rfl, below, rfl⟩
              all_goals cases folded
              all_goals first
                | exact .inr ⟨by simp, by simp, rfl, true, kept, rfl⟩
                | exact .inr ⟨by simp, by simp, rfl, false, by simp only [merges], rfl⟩

/-- A modification schedules the request, removes the entry, or folds the entry into the hash. -/
theorem modifyEntries_cases (modification : modifyEntries entries name entry flags = .ok modified) :
    (flags.schedule = false ∧ foldEntry entries name flags entry = .ok modified) ∨
      (flags.schedule = true ∧ ∃ scheduled changed next,
        foldScheduling entries name flags entry.schedule = .ok (scheduled, changed, next) ∧
        (((entries.lookup name).isSome = true ∧ scheduled.lookup name = none ∧ modified = scheduled) ∨
          (((entries.lookup name).isSome = true → scheduled.lookup name ≠ none) ∧
            foldEntry scheduled name changed { entry with schedule := next } = .ok modified))) := by
  rw [modifyEntries] at modification
  by_cases request : flags.schedule = true
  · rw [if_pos request] at modification
    right
    refine ⟨request, ?_⟩
    split at modification
    · cases modification
    · next scheduled changed next folded =>
        refine ⟨scheduled, changed, next, folded, ?_⟩
        split at modification
        · next removed =>
            cases modification
            exact .inl ⟨removed.1, removed.2, rfl⟩
        · next kept => exact .inr ⟨fun known gone => kept ⟨known, gone⟩, modification⟩
  · rw [if_neg request] at modification
    exact .inl ⟨by simpa using request, modification⟩

/-- The other entries stay as they are. -/
theorem modifyEntries_other {other : Bytes} {found : Entry}
    (modification : modifyEntries entries name entry flags = .ok modified) (different : other ≠ name)
    (lookup : modified.lookup other = some found) : entries.lookup other = some found := by
  have unchanged {scheduled : EntriesHash} {changed : ModifyFlags} {next : Schedule}
      (folded : foldScheduling entries name flags entry.schedule = .ok (scheduled, changed, next)) :
      scheduled.lookup other = entries.lookup other := by
    rcases foldScheduling_entries folded with rfl | rfl
    · rfl
    · exact AList.lookup_erase_ne different
  rcases modifyEntries_cases modification with
    ⟨-, folded⟩ | ⟨-, scheduled, changed, next, scheduling, ⟨-, -, rfl⟩ | ⟨-, folded⟩⟩
  · exact (foldEntry_lookup folded lookup).elim And.right fun same => absurd same.1 different
  · rw [← unchanged scheduling, lookup]
  · rw [← unchanged scheduling]
    exact (foldEntry_lookup folded lookup).elim And.right fun same => absurd same.1 different

/-- Nothing is newly scheduled for addition in a directory that is scheduled for deletion. -/
theorem modifyEntries_deleted {other : Bytes} {found : Entry} (merges : flags.force = false)
    (directory : entries.lookup thisDirName = some thisDir) (deleted : thisDir.schedule = .delete)
    (known : flags.schedule = true → entry.schedule = .add → entries.lookup name ≠ none)
    (modification : modifyEntries entries name entry flags = .ok modified) (below : other ≠ thisDirName)
    (lookup : modified.lookup other = some found) (added : ToBeAdded found) :
    ∃ before, entries.lookup other = some before ∧ ToBeAdded before := by
  by_cases different : other ≠ name
  · exact ⟨found, modifyEntries_other modification different lookup, added⟩
  obtain rfl := not_not.mp different
  -- an entry of which the schedule is not folded keeps it, and a new entry has the normal one
  have keeps (flags : ModifyFlags) (entry : Entry) (withdrawn : flags.schedule = false)
      (folded : foldEntry entries other flags entry = .ok modified) :
      ∃ before, entries.lookup other = some before ∧ ToBeAdded before := by
    rcases foldEntry_lookup folded lookup with ⟨ne, -⟩ | ⟨-, same⟩
    · exact absurd rfl ne
    · rw [mergedEntry_schedule, if_neg (by simp [withdrawn])] at same
      cases current : entries.lookup other with
      | none =>
          rw [current] at same
          rw [ToBeAdded, same] at added
          simp [allocEntry] at added
      | some before =>
          rw [current] at same
          rw [ToBeAdded, same] at added
          exact ⟨before, rfl, added⟩
  rcases modifyEntries_cases modification with
    ⟨withdrawn, folded⟩ | ⟨request, scheduled, changed, next, scheduling, result⟩
  · exact keeps flags entry withdrawn folded
  · cases current : entries.lookup other with
    | none =>
        have add : entry.schedule ≠ .add := fun add => known request add current
        simp [foldScheduling, request, merges, current, add] at scheduling
    | some before =>
        rcases foldScheduling_deleted below deleted directory current request merges scheduling with
          rfl | ⟨rfl, withdrawn | rfl⟩
        · rcases result with ⟨-, -, rfl⟩ | ⟨stays, -⟩
          · simp at lookup
          · exact absurd (AList.lookup_erase _ _) (stays (by rw [current]; rfl))
        · rcases result with ⟨-, gone, -⟩ | ⟨-, folded⟩
          · rw [current] at gone
            cases gone
          · rw [← current]
            exact keeps changed _ withdrawn folded
        · rcases result with ⟨-, gone, -⟩ | ⟨-, folded⟩
          · rw [current] at gone
            cases gone
          · by_cases withdrawn : changed.schedule = false
            · rw [← current]
              exact keeps changed _ withdrawn folded
            · rcases foldEntry_lookup folded lookup with ⟨ne, -⟩ | ⟨-, same⟩
              · exact absurd rfl ne
              · rw [mergedEntry_schedule, if_pos (by simpa using withdrawn)] at same
                rw [ToBeAdded, same] at added
                simp at added

/-- An entry that was added and is deleted is gone. -/
theorem modifyEntries_removed {current : Entry} (lookup : entries.lookup name = some current)
    (added : current.schedule = .add) (request : flags.schedule = true) (merges : flags.force = false)
    (deletes : entry.schedule = .delete)
    (modification : modifyEntries entries name entry flags = .ok modified) :
    modified = entries.erase name := by
  rcases modifyEntries_cases modification with
    ⟨withdrawn, -⟩ | ⟨-, scheduled, changed, next, scheduling, result⟩
  · rw [request] at withdrawn
    cases withdrawn
  · have erased : scheduled = entries.erase name := by
      rw [deletes] at scheduling
      cases directory : entries.lookup thisDirName with
      | none => simp [foldScheduling, request, merges, lookup, directory] at scheduling
      | some thisDir =>
          by_cases own : name = thisDirName
          · simp [foldScheduling, request, merges, lookup, directory, added, own] at scheduling
          · simp [foldScheduling, request, merges, lookup, directory, added, own] at scheduling
            exact scheduling.1.symm
    subst erased
    rcases result with ⟨-, -, rfl⟩ | ⟨stays, -⟩
    · rfl
    · exact absurd (AList.lookup_erase _ _) (stays (by rw [lookup]; rfl))

end Requests

section Runs

variable {format : TimeFormat} {path : Bytes} {file : EntriesFile} {call : Call}

theorem Reads.unique {entries after : EntriesHash} (first : Reads format file entries)
    (second : Reads format file after) : entries = after := by
  obtain ⟨atts, rfl, read⟩ := first
  obtain ⟨same, whole, again⟩ := second
  cases whole
  rw [read] at again
  exact Except.ok.inj again

theorem entryModify_eq_ok {atts written : List Atts} {name : Option Bytes} {entry : Entry}
    {flags : ModifyFlags} (modified : entryModify format path atts name entry flags = .ok written) :
    ∃ entries after, entriesRead format atts = .ok entries ∧
      modifyEntries entries (name.getD thisDirName) entry flags = .ok after ∧
      entriesWrite format path after = .ok written := by
  obtain ⟨entries, read, rest⟩ := bind_eq_ok modified
  obtain ⟨after, modification, writes⟩ := bind_eq_ok rest
  exact ⟨entries, after, read, modification, writes⟩

/-- A harmless call that does not force its schedule keeps the entries. -/
theorem keepsEntries_of_harmless (path : Bytes) (merges : call.flags.force = false)
    (harmless : Harmless format file call) : KeepsEntries format path file call := by
  rcases svnWcEntryModify_cases path harmless with
    ⟨error, failed⟩ | ⟨atts, written, rfl, modified, saved⟩
  · have stays : step format path file call = file := by rw [step, failed]
    refine ⟨fun _ _ => stays, fun listed => by rwa [stays], ?_, ?_⟩
    · intro entries entry reads lookup added request deletes succeeds
      rw [failed] at succeeds
      cases succeeds
    · intro entries thisDir after reads directory deleted readsAfter name entry below lookup added
      rw [stays] at readsAfter
      obtain rfl := reads.unique readsAfter
      exact ⟨entry, lookup, added⟩
  · have becomes : step format path (.whole atts) call = .whole written := by rw [step, saved]
    obtain ⟨entries, after, read, modification, writes⟩ := entryModify_eq_ok modified
    have now : Reads format (.whole atts) entries := ⟨atts, rfl, read⟩
    refine ⟨?_, ?_, ?_, ?_⟩
    · intro error failed
      rw [saved] at failed
      cases failed
    · intro listed
      obtain ⟨first, member, own⟩ := (entriesWrite_lookup writes).1
      exact ⟨written, becomes, first, member, by rw [own, Option.getD_some]⟩
    · intro same entry reads lookup added request deletes succeeds
      obtain rfl := now.unique reads
      rintro ⟨others, rewritten, left, member, own⟩
      rw [becomes] at rewritten
      cases rewritten
      obtain ⟨name, found, stillThere, named, -⟩ := (entriesWrite_lookup writes).2 left member
      rw [named, Option.getD_some] at own
      rw [own, modifyEntries_removed lookup added request merges deletes modification,
        AList.lookup_erase] at stillThere
      cases stillThere
    · intro same thisDir reread reads directory deleted readsAfter name entry below lookup added
      obtain rfl := now.unique reads
      obtain ⟨others, rewritten, readBack⟩ := readsAfter
      rw [becomes] at rewritten
      cases rewritten
      obtain ⟨scheduled, found, sameSchedule⟩ := written_schedule writes readBack lookup
      apply modifyEntries_deleted merges directory deleted
        (harmless.known entries thisDir now directory deleted) modification below found
      rw [ToBeAdded, sameSchedule]
      exact added

/-- In a run of harmless calls that do not force their schedules, every call keeps the entries. -/
theorem runs_keep_entries (format : TimeFormat) (path : Bytes) (file : EntriesFile) (calls : List Call)
    (merges : ∀ call ∈ calls, call.flags.force = false)
    (harmless : Along (step format path) (Harmless format) file calls) :
    Along (step format path) (KeepsEntries format path) file calls ∧
      (Lists file thisDirName → Lists (calls.foldl (step format path) file) thisDirName) := by
  have guarded := (Along.of_forall (fun call member _ => merges call member) file).and harmless
  refine Along.run (fun state => Lists file thisDirName → Lists state thisDirName) ?_ calls id guarded
  rintro state call listed ⟨merges, harmless⟩
  have keeps := keepsEntries_of_harmless path merges harmless
  exact ⟨keeps, fun before => keeps.thisDir (listed before)⟩

def noFailures : Failures := ⟨false, false, false, false, false, false, false⟩

/-- A call that asks for a schedule. -/
def scheduleCall (name : Option Bytes) (kind : NodeKind) (schedule : Schedule) : Call where
  name := name
  entry := { allocEntry (name.getD thisDirName) with kind := kind, schedule := schedule }
  flags := { noFlags with kind := true, schedule := true }
  failures := noFailures

/-- The directory and its file are deleted, and then the file is asked for again. -/
theorem runs_keep_deleted_directory :
    Along (step decimalTime []) (KeepsEntries decimalTime []) (.whole [directoryAtts, fileAtts])
        [scheduleCall none .dir .delete, scheduleCall (some [102]) .file .delete,
          scheduleCall (some [102]) .file .normal] ∧
      (Lists (.whole [directoryAtts, fileAtts]) thisDirName →
        Lists ([scheduleCall none .dir .delete, scheduleCall (some [102]) .file .delete,
          scheduleCall (some [102]) .file .normal].foldl (step decimalTime [])
            (.whole [directoryAtts, fileAtts])) thisDirName) := by
  apply runs_keep_entries
  · simp [scheduleCall, noFlags]
  · have harmless (file : EntriesFile) (name : Option Bytes) (kind : NodeKind) (schedule : Schedule)
        (other : schedule ≠ .add) : Harmless decimalTime file (scheduleCall name kind schedule) :=
      ⟨fun _ => ⟨rfl, rfl⟩, fun _ _ _ _ _ _ add => absurd add other⟩
    exact ⟨harmless _ _ _ _ (by decide), harmless _ _ _ _ (by decide), harmless _ _ _ _ (by decide),
      trivial⟩

def deletedDirectory : List Atts := [{ directoryAtts with schedule := some deleteStr }, fileAtts]

def deletedEntry : Entry := { directoryEntry with schedule := .delete }

def deletedEntries : EntriesHash := (AList.insert thisDirName deletedEntry ∅).insert [102] fileEntry

def newFile : Entry :=
  { allocEntry [103] with
    kind := .file
    schedule := .add
    revision := 3 }

/-- A name that is not yet in the entries is added to a directory that is scheduled for deletion. -/
theorem deleted_directory_takes_new_file :
    ¬ ∀ (format : TimeFormat) (path : Bytes) (file : EntriesFile) (calls : List Call),
      (∀ call ∈ calls, call.flags.force = false) →
        Along (step format path) (KeepsEntries format path) file calls := by
  intro claim
  have along := claim decimalTime [] (.whole deletedDirectory) [scheduleCall (some [103]) .file .add]
    (by decide)
  have before : Reads decimalTime (.whole deletedDirectory) deletedEntries := ⟨_, rfl, rfl⟩
  have after : Reads decimalTime
      (step decimalTime [] (.whole deletedDirectory) (scheduleCall (some [103]) .file .add))
      (((AList.insert thisDirName deletedEntry ∅).insert [103] newFile).insert [102] fileEntry) :=
    ⟨_, rfl, rfl⟩
  obtain ⟨known, found, -⟩ := along.1.deleted _ _ _ before (by rfl) rfl after [103] newFile (by decide)
    (by rfl) (.inl rfl)
  cases found

end Runs

end Subversion.Wc
