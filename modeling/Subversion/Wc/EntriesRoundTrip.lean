/-
This file shows which entries survive being written to the entries file and read back.
-/

import Subversion.Wc.Entries

namespace Subversion.Wc

open Delta Subr

/-- The hashes that come from reading a file and from changes in memory. A modification of the file
reads it, changes the hash, and writes that hash. -/
inductive Obtained (format : TimeFormat) : EntriesHash → Prop
  | read {file : List Atts} {entries : EntriesHash} :
      entriesRead format file = .ok entries → Obtained format entries
  | modify {entries modified : EntriesHash} {name : Bytes} {entry : Entry} {flags : ModifyFlags} :
      Obtained format entries → modifyEntries entries name entry flags = .ok modified →
      Obtained format modified
  | tweak {entries tweaked : EntriesHash} {name : Bytes} {newUrl : Option Bytes} {newRev : Int64} :
      Obtained format entries → tweakEntry entries name newUrl newRev = .ok tweaked →
      Obtained format tweaked

/-- The entry of a subdirectory carries no revision and no url of its own. -/
def clearSubdir (name : Bytes) (entry : Entry) : Entry :=
  if name ≠ thisDirName ∧ entry.kind = .dir then
    { entry with revision := invalidRevnum, url := none }
  else entry

/-- Writing the hash and reading it back gives the same entries. -/
def RoundTrips (format : TimeFormat) (path : Bytes) (entries : EntriesHash) : Prop :=
  ∃ file back, entriesWrite format path entries = .ok file ∧ entriesRead format file = .ok back ∧
    ∀ name, back.lookup name = (entries.lookup name).map (clearSubdir name)

def UnsetOrValid (revision : Int64) : Prop := revision = invalidRevnum ∨ isValidRevnum revision

instance (revision : Int64) : Decidable (UnsetOrValid revision) := inferInstanceAs (Decidable (_ ∨ _))

/-- A file takes what is left out from the directory, and an entry without a kind does not. An
added or replaced file does not take the url. -/
def OwnFieldsSurvive (thisDir : Entry) (name : Bytes) (entry : Entry) : Prop :=
  match entry.kind with
  | .file => isValidRevnum entry.revision ∧
      if entry.schedule = .add ∨ entry.schedule = .replace then
        entry.url ≠ thisDir.url.map (addComponent · name)
      else entry.url ≠ none
  | .none => UnsetOrValid entry.revision ∧ entry.revision ≠ thisDir.revision ∧
      entry.url ≠ thisDir.url.map (addComponent · name)
  | .dir => True
  | .unknown => False

structure EntrySurvives (thisDir : Entry) (name : Bytes) (entry : Entry) : Prop where
  kind : entry.kind ≠ .unknown
  copyfromRev : UnsetOrValid entry.copyfromRev
  cmtRev : UnsetOrValid entry.cmtRev
  own : name ≠ thisDirName → name ≠ [46] ∧ OwnFieldsSurvive thisDir name entry

/-- The directory has a revision and a url to inherit, and every entry survives. -/
def Survives (entries : EntriesHash) : Prop :=
  ∃ thisDir, entries.lookup thisDirName = some thisDir ∧ isValidRevnum thisDir.revision ∧
    thisDir.url ≠ none ∧ ∀ name entry, entries.lookup name = some entry →
      EntrySurvives thisDir name entry

section Attributes

variable (format : TimeFormat)

/-- A revision that is not valid is not written. -/
def storedRev (revision : Int64) : Int64 := if isValidRevnum revision then revision else invalidRevnum

theorem attsToRev_revAtt (revision : Int64) : attsToRev (revAtt revision) = storedRev revision := by
  rw [revAtt, storedRev]
  split
  · exact atol_putLong revision
  · rfl

theorem storedRev_eq_self_iff (revision : Int64) : storedRev revision = revision ↔ UnsetOrValid revision := by
  rw [storedRev, UnsetOrValid]
  split
  · next valid => simp [valid]
  · next invalid => simp [invalid, eq_comm]

def storedKind : NodeKind → NodeKind
  | .unknown => .file
  | kind => kind

theorem storedKind_eq_self_iff (kind : NodeKind) : storedKind kind = kind ↔ kind ≠ .unknown := by
  cases kind <;> decide

theorem attsToKind_kindAtt (name : Bytes) (kind : NodeKind) :
    attsToKind name (kindAtt kind) = .ok (storedKind kind) := by
  cases kind <;> rfl

theorem attsToSchedule_scheduleAtt (name : Bytes) (schedule : Schedule) :
    attsToSchedule name (scheduleAtt schedule) = .ok schedule := by
  cases schedule <;> rfl

theorem attsToCopied_copied (name : Bytes) (copied : Bool) :
    attsToCopied name (if copied then some trueStr else none) = .ok copied := by
  cases copied <;> rfl

theorem attsToTime_timeAtt (time : Int64) : attsToTime format (timeAtt format time) = time := by
  rw [timeAtt]
  split
  · rw [attsToTime, if_neg (format.toNts_ne_working time), format.fromNts_toNts]
  · next zero => exact (not_not.mp zero).symm

theorem attsToDate_timeAtt (time : Int64) : attsToDate format (timeAtt format time) = time := by
  rw [timeAtt]
  split
  · exact format.fromNts_toNts time
  · next zero => exact (not_not.mp zero).symm

/-- The entry that comes back from the attributes of an entry under the given revision and url. -/
def storedEntry (entry : Entry) (name : Bytes) (revision url : Option Bytes) : Entry :=
  { entry with
    name := name
    revision := attsToRev revision
    url := url
    kind := storedKind entry.kind
    copyfromRev := storedRev entry.copyfromRev
    cmtRev := storedRev entry.cmtRev }

theorem attsToEntry_entryAtts (entry : Entry) (name : Bytes) (revision url : Option Bytes) :
    ∃ flags, attsToEntry format { entryAtts format entry name with revision := revision, url := url } =
      .ok (storedEntry entry name revision url, flags) := by
  rw [attsToEntry]
  simp only [entryAtts, Option.getD_some, attsToKind_kindAtt, attsToSchedule_scheduleAtt,
    attsToCopied_copied, attsToRev_revAtt, attsToTime_timeAtt, attsToDate_timeAtt]
  exact ⟨_, rfl⟩

end Attributes

section File

variable (format : TimeFormat)

def writtenRevision (thisDir : Entry) (name : Bytes) (entry : Entry) : Option Bytes :=
  if name = thisDirName then revAtt entry.revision
  else if entry.kind = .dir ∨ entry.revision = thisDir.revision then none
  else revAtt entry.revision

def writtenUrl (thisDir : Entry) (name : Bytes) (entry : Entry) : Option Bytes :=
  if name = thisDirName then entry.url
  else if entry.kind = .dir ∨ entry.url = thisDir.url.map (addComponent · name) then none
  else entry.url

def writtenAtts (thisDir : Entry) (name : Bytes) (entry : Entry) : Atts :=
  { entryAtts format entry name with
    revision := writtenRevision thisDir name entry
    url := writtenUrl thisDir name entry }

def storedUnder (thisDir : Entry) (name : Bytes) (entry : Entry) : Entry :=
  storedEntry entry name (writtenRevision thisDir name entry) (writtenUrl thisDir name entry)

/-- A directory that has a url can write every entry that is not called `.`. -/
theorem writeEntry_eq_ok_iff {thisDir : Entry} (hasUrl : thisDir.url ≠ none) (name : Bytes)
    (entry : Entry) (atts : Atts) :
    writeEntry format entry name thisDir = .ok atts ↔
      (name ≠ thisDirName → name ≠ [46]) ∧ writtenAtts format thisDir name entry = atts := by
  obtain ⟨thisPath, url⟩ := Option.ne_none_iff_exists'.mp hasUrl
  by_cases own : name = thisDirName
  · simp [writeEntry, writtenAtts, writtenRevision, writtenUrl, own, entryAtts]
  · by_cases dot : name = [46]
    · simp [writeEntry, dot, thisDirName]
    · have written : writeEntry format entry name thisDir =
          .ok (writtenAtts format thisDir name entry) := by
        rw [writeEntry]
        simp only [own, dot, if_false]
        by_cases subdir : entry.kind = .dir
        · simp [writtenAtts, writtenRevision, writtenUrl, own, subdir]
        · cases ownUrl : entry.url with
          | none =>
              by_cases same : entry.revision = thisDir.revision <;>
                simp [writtenAtts, writtenRevision, writtenUrl, own, subdir, same, ownUrl, url, entryAtts]
          | some address =>
              by_cases derived : address = addComponent thisPath name
              · by_cases same : entry.revision = thisDir.revision <;>
                  simp [writtenAtts, writtenRevision, writtenUrl, own, subdir, same, ownUrl, url,
                    derived, entryAtts]
              · by_cases same : entry.revision = thisDir.revision <;>
                  simp [writtenAtts, writtenRevision, writtenUrl, own, subdir, same, ownUrl, url,
                    derived, Ne.symm derived, entryAtts]
      simp [written, dot]

theorem attsToEntry_writtenAtts (thisDir : Entry) (name : Bytes) (entry : Entry) :
    ∃ flags, attsToEntry format (writtenAtts format thisDir name entry) =
      .ok (storedUnder thisDir name entry, flags) :=
  attsToEntry_entryAtts format entry name _ _

/-- A computation over a list succeeds if it does so at every element. -/
theorem mapM_eq_ok_iff {α β : Type} {step : α → Except SvnError β} (list : List α) :
    ∀ results, list.mapM step = .ok results ↔
      List.Forall₂ (fun element result => step element = .ok result) list results := by
  induction list with
  | nil =>
      intro results
      simp only [List.mapM_nil, List.forall₂_nil_left_iff]
      exact ⟨fun same => (Except.ok.inj same).symm, fun same => same ▸ rfl⟩
  | cons element list ih =>
      intro results
      rw [List.mapM_cons]
      cases first : step element with
      | error error =>
          constructor
          · intro impossible
            cases impossible
          · intro all
            cases all with
            | cons head tail => simp [first] at head
      | ok result =>
          cases rest : list.mapM step with
          | error error =>
              constructor
              · intro impossible
                cases impossible
              · intro all
                cases all with
                | cons head tail => simp [(ih _).mpr tail] at rest
          | ok others =>
              constructor
              · intro same
                cases same
                exact .cons first ((ih others).mp rest)
              · intro all
                cases all with
                | cons head tail =>
                    rw [(ih _).mpr tail] at rest
                    rw [first] at head
                    cases rest
                    cases head
                    rfl

/-- Entries under different names are read into a hash, each under its own name. -/
theorem foldlM_handleStartTag (thisDir : Entry) (list : List (Sigma fun _ : Bytes => Entry)) :
    ∀ entries : EntriesHash, list.NodupKeys →
      ∃ read, (list.map fun entry => writtenAtts format thisDir entry.1 entry.2).foldlM
          (handleStartTag format) entries = .ok read ∧
        ∀ name, read.lookup name =
          match list.dlookup name with
          | some entry => some (storedUnder thisDir name entry)
          | none => entries.lookup name := by
  induction list with
  | nil => exact fun entries _ => ⟨entries, rfl, fun name => rfl⟩
  | cons head list ih =>
      intro entries distinct
      obtain ⟨headName, entry⟩ := head
      rw [List.nodupKeys_cons] at distinct
      obtain ⟨flags, converted⟩ := attsToEntry_writtenAtts format thisDir headName entry
      obtain ⟨read, folded, lookups⟩ := ih (entries.insert headName
        (storedUnder thisDir headName entry)) distinct.2
      refine ⟨read, ?_, ?_⟩
      · rw [List.map_cons, List.foldlM_cons, handleStartTag, converted]
        exact folded
      · intro name
        rw [lookups name]
        by_cases same : name = headName
        · subst same
          have absent : list.dlookup name = none := List.dlookup_eq_none.mpr distinct.1
          simp [absent, List.dlookup_cons_eq, AList.lookup_insert]
        · rw [List.dlookup_cons_ne _ _ same, AList.lookup_insert_ne same]

theorem lookup_mapEntries (change : Bytes → Entry → Entry) (entries : EntriesHash) (name : Bytes) :
    (mapEntries change entries).lookup name = (entries.lookup name).map (change name) := by
  have listed : ∀ list : List (Sigma fun _ : Bytes => Entry),
      (list.map fun entry => (⟨entry.1, change entry.1 entry.2⟩ : Sigma fun _ : Bytes => Entry)).dlookup
        name = (list.dlookup name).map (change name) := by
    intro list
    induction list with
    | nil => rfl
    | cons head list ih =>
        obtain ⟨headName, entry⟩ := head
        by_cases same : name = headName
        · subst same
          simp [List.dlookup_cons_eq]
        · rw [List.map_cons, List.dlookup_cons_ne _ _ same, List.dlookup_cons_ne _ _ same, ih]
  exact listed entries.entries

/-- The entries in the order of the file. -/
def fileEntries (thisDir : Entry) (entries : EntriesHash) : List (Sigma fun _ : Bytes => Entry) :=
  ⟨thisDirName, thisDir⟩ :: entries.entries.filter fun entry => entry.1 ≠ thisDirName

theorem dlookup_filter_ne (name dropped : Bytes) (list : List (Sigma fun _ : Bytes => Entry))
    (other : name ≠ dropped) :
    (list.filter fun entry => entry.1 ≠ dropped).dlookup name = list.dlookup name := by
  induction list with
  | nil => rfl
  | cons head list ih =>
      obtain ⟨headName, entry⟩ := head
      by_cases same : name = headName
      · subst same
        simp [other, List.dlookup_cons_eq]
      · rw [List.dlookup_cons_ne _ _ same, List.filter_cons]
        split
        · rw [List.dlookup_cons_ne _ _ same, ih]
        · exact ih

theorem dlookup_fileEntries {thisDir : Entry} {entries : EntriesHash}
    (found : entries.lookup thisDirName = some thisDir) (name : Bytes) :
    (fileEntries thisDir entries).dlookup name = entries.lookup name := by
  by_cases own : name = thisDirName
  · rw [fileEntries, own, List.dlookup_cons_eq, found]
  · rw [fileEntries, List.dlookup_cons_ne _ _ own, dlookup_filter_ne _ _ _ own, AList.lookup]

theorem fileEntries_nodupKeys (thisDir : Entry) (entries : EntriesHash) :
    (fileEntries thisDir entries).NodupKeys := by
  rw [fileEntries, List.nodupKeys_cons]
  constructor
  · simp [List.mem_keys, List.mem_filter]
  · exact List.NodupKeys.sublist List.filter_sublist entries.nodupKeys

/-- If the directory has a url, the file holds every entry, unless one of them is called `.`. -/
theorem entriesWrite_eq_ok_iff (path : Bytes) {thisDir : Entry} {entries : EntriesHash}
    (found : entries.lookup thisDirName = some thisDir) (hasUrl : thisDir.url ≠ none)
    (file : List Atts) :
    entriesWrite format path entries = .ok file ↔
      entries.lookup [46] = none ∧ file = (fileEntries thisDir entries).map fun entry =>
        writtenAtts format thisDir entry.1 entry.2 := by
  have first : writeEntry format thisDir thisDirName thisDir =
      .ok (writtenAtts format thisDir thisDirName thisDir) :=
    (writeEntry_eq_ok_iff format hasUrl _ _ _).mpr ⟨fun other => absurd rfl other, rfl⟩
  have noDot : (∀ entry ∈ entries.entries.filter fun entry => entry.1 ≠ thisDirName,
      entry.1 ≠ thisDirName → entry.1 ≠ [46]) ↔ entries.lookup [46] = none := by
    rw [AList.lookup_eq_none, AList.mem_keys, AList.keys, List.mem_keys]
    constructor
    · rintro all ⟨entry, member⟩
      have other : ([46] : Bytes) ≠ thisDirName := by decide
      exact all ⟨[46], entry⟩ (List.mem_filter.mpr ⟨member, by simpa using other⟩) other rfl
    · rintro absent ⟨name, entry⟩ member - rfl
      exact absent ⟨entry, (List.mem_filter.mp member).1⟩
  have rest : ∀ atts, (entries.entries.filter fun entry => entry.1 ≠ thisDirName).mapM
      (fun entry => writeEntry format entry.2 entry.1 thisDir) = .ok atts ↔
        entries.lookup [46] = none ∧ (entries.entries.filter fun entry => entry.1 ≠ thisDirName).map
          (fun entry => writtenAtts format thisDir entry.1 entry.2) = atts := by
    intro atts
    rw [mapM_eq_ok_iff]
    simp only [writeEntry_eq_ok_iff format hasUrl]
    rw [List.forall₂_and_left, noDot, ← List.forall₂_map_left_iff, List.forall₂_eq_eq_eq]
  rw [entriesWrite, found]
  simp only [first, fileEntries, List.map_cons]
  constructor
  · intro written
    cases others : (entries.entries.filter fun entry => entry.1 ≠ thisDirName).mapM
        (fun entry => writeEntry format entry.2 entry.1 thisDir) with
    | error error =>
        rw [others] at written
        cases written
    | ok atts =>
        rw [others] at written
        cases written
        obtain ⟨dotFree, same⟩ := (rest atts).mp others
        exact ⟨dotFree, by rw [same]⟩
  · rintro ⟨dotFree, rfl⟩
    rw [(rest _).mpr ⟨dotFree, rfl⟩]
    rfl

/-- An entry after the defaults are filled in. -/
def resolvedEntry (thisDir : Entry) (name : Bytes) (entry : Entry) : Entry :=
  fillDefaults (storedUnder thisDir thisDirName thisDir) name (storedUnder thisDir name entry)

/-- What is read back, if the directory's own entry has kept its revision. -/
theorem entriesRead_written {thisDir : Entry} {entries : EntriesHash}
    (found : entries.lookup thisDirName = some thisDir) (hasUrl : thisDir.url ≠ none)
    (hasRevision : isValidRevnum thisDir.revision) :
    ∃ back, entriesRead format ((fileEntries thisDir entries).map fun entry =>
        writtenAtts format thisDir entry.1 entry.2) = .ok back ∧
      ∀ name, back.lookup name = (entries.lookup name).map (resolvedEntry thisDir name) := by
  obtain ⟨read, folded, lookups⟩ := foldlM_handleStartTag format thisDir
    (fileEntries thisDir entries) ∅ (fileEntries_nodupKeys thisDir entries)
  have stored : ∀ name, read.lookup name =
      (entries.lookup name).map (storedUnder thisDir name) := by
    intro name
    rw [lookups name, dlookup_fileEntries found]
    cases entries.lookup name <;> rfl
  have valid : (storedUnder thisDir thisDirName thisDir).revision ≠ invalidRevnum := by
    rw [storedUnder, storedEntry, writtenRevision, if_pos rfl, attsToRev_revAtt, storedRev,
      if_pos hasRevision]
    rintro unset
    rw [unset] at hasRevision
    exact absurd hasRevision (by decide)
  have url : (storedUnder thisDir thisDirName thisDir).url ≠ none := by
    rw [storedUnder, storedEntry, writtenUrl, if_pos rfl]
    exact hasUrl
  refine ⟨mapEntries (fillDefaults (storedUnder thisDir thisDirName thisDir)) read, ?_, ?_⟩
  · rw [entriesRead, folded]
    show resolveToDefaults read = _
    rw [resolveToDefaults, stored, found]
    simp only [Option.map_some, valid, url, if_false]
  · intro name
    rw [lookup_mapEntries, stored]
    cases entries.lookup name <;> rfl

end File

section Survival

variable {thisDir : Entry}

theorem ne_invalidRevnum {revision : Int64} (valid : isValidRevnum revision) :
    revision ≠ invalidRevnum := by
  rintro rfl
  exact absurd valid (by decide)

theorem storedUnder_thisDir_revision (hasRevision : isValidRevnum thisDir.revision) :
    (storedUnder thisDir thisDirName thisDir).revision = thisDir.revision := by
  rw [storedUnder, storedEntry, writtenRevision, if_pos rfl, attsToRev_revAtt, storedRev,
    if_pos hasRevision]

theorem storedUnder_thisDir_url : (storedUnder thisDir thisDirName thisDir).url = thisDir.url := by
  rw [storedUnder, storedEntry, writtenUrl, if_pos rfl]

/-- A revision that is left out comes back as the revision of the directory. -/
theorem inherited_revision_eq_iff (hasRevision : isValidRevnum thisDir.revision) (revision : Int64) :
    (if attsToRev (if revision = thisDir.revision then none else revAtt revision) = invalidRevnum then
        thisDir.revision
      else attsToRev (if revision = thisDir.revision then none else revAtt revision)) = revision ↔
      isValidRevnum revision := by
  by_cases same : revision = thisDir.revision
  · simp [same, attsToRev, hasRevision]
  · rw [if_neg same, attsToRev_revAtt, storedRev]
    by_cases valid : isValidRevnum revision
    · simp [valid, ne_invalidRevnum valid]
    · simp [valid, Ne.symm same]

/-- Without a kind, a revision that is left out stays out. -/
theorem own_revision_eq_iff (hasRevision : isValidRevnum thisDir.revision) (revision : Int64) :
    attsToRev (if revision = thisDir.revision then none else revAtt revision) = revision ↔
      UnsetOrValid revision ∧ revision ≠ thisDir.revision := by
  by_cases same : revision = thisDir.revision
  · simp [same, attsToRev, (ne_invalidRevnum hasRevision).symm]
  · rw [if_neg same, attsToRev_revAtt, storedRev_eq_self_iff]
    simp [same]

theorem own_url_eq_iff {default : Option Bytes} (hasDefault : default ≠ none) (url : Option Bytes) :
    (if url = default then none else url) = url ↔ url ≠ default := by
  by_cases same : url = default
  · simp [same, hasDefault.symm]
  · simp [same]

/-- A file that is added or replaced loses a url that is left out. -/
theorem inherited_url_eq_iff {default : Option Bytes} (hasDefault : default ≠ none)
    (url : Option Bytes) (schedule : Schedule) :
    (if (¬ url = default → url = none) ∧ ¬ schedule = .add ∧ ¬ schedule = .replace then default
      else if url = default then none else url) = url ↔
      if schedule = .add ∨ schedule = .replace then ¬ url = default else ¬ url = none := by
  by_cases scheduled : schedule = .add ∨ schedule = .replace
  · have notInherited : ¬ ((¬ url = default → url = none) ∧ ¬ schedule = .add ∧
        ¬ schedule = .replace) := fun inherits => scheduled.elim inherits.2.1 inherits.2.2
    rw [if_neg notInherited, if_pos scheduled]
    exact own_url_eq_iff hasDefault url
  · rw [if_neg scheduled]
    rw [not_or] at scheduled
    by_cases same : url = default
    · simp [same, scheduled, hasDefault]
    · by_cases unset : url = none
      · simp [unset, scheduled, hasDefault]
      · simp [same, unset]

theorem resolvedEntry_eq_iff (hasUrl : thisDir.url ≠ none)
    (hasRevision : isValidRevnum thisDir.revision) {name : Bytes} {entry : Entry}
    (named : entry.name = name) (own : name = thisDirName → entry = thisDir)
    (noDot : name ≠ thisDirName → name ≠ [46]) :
    resolvedEntry thisDir name entry = clearSubdir name entry ↔ EntrySurvives thisDir name entry := by
  have hasDefault : thisDir.url.map (addComponent · name) ≠ none := by simpa using hasUrl
  have fields : EntrySurvives thisDir name entry ↔ entry.kind ≠ .unknown ∧
      storedRev entry.copyfromRev = entry.copyfromRev ∧ storedRev entry.cmtRev = entry.cmtRev ∧
      (name ≠ thisDirName → OwnFieldsSurvive thisDir name entry) := by
    rw [storedRev_eq_self_iff, storedRev_eq_self_iff]
    constructor
    · intro survives
      exact ⟨survives.kind, survives.copyfromRev, survives.cmtRev, fun other => (survives.own other).2⟩
    · rintro ⟨kind, copyfromRev, cmtRev, rest⟩
      exact ⟨kind, copyfromRev, cmtRev, fun other => ⟨noDot other, rest other⟩⟩
  rw [fields, resolvedEntry, fillDefaults, clearSubdir]
  by_cases ownName : name = thisDirName
  · obtain rfl := own ownName
    subst ownName
    have kept : storedRev entry.revision = entry.revision := if_pos hasRevision
    simp [Entry.ext_iff, storedUnder, storedEntry, writtenRevision, writtenUrl, attsToRev_revAtt,
      kept, named, storedKind_eq_self_iff]
  · cases kind : entry.kind with
    | unknown =>
        simp [Entry.ext_iff, storedUnder, storedEntry, ownName, kind, storedKind, takeFromEntry]
    | dir =>
        simp [Entry.ext_iff, storedUnder, storedEntry, writtenRevision, writtenUrl, ownName, kind,
          storedKind, named, OwnFieldsSurvive, attsToRev]
    | none =>
        simp [Entry.ext_iff, storedUnder, storedEntry, writtenRevision, writtenUrl, ownName, kind,
          storedKind, named, OwnFieldsSurvive, own_revision_eq_iff hasRevision,
          own_url_eq_iff hasDefault]
        tauto
    | file =>
        have revision := storedUnder_thisDir_revision hasRevision
        have url := @storedUnder_thisDir_url thisDir
        generalize storedUnder thisDir thisDirName thisDir = default at revision url
        simp [Entry.ext_iff, revision, url, storedUnder, storedEntry, writtenRevision, writtenUrl,
          ownName, kind, storedKind, named, OwnFieldsSurvive, takeFromEntry, inheritsUrl,
          inherited_revision_eq_iff hasRevision, inherited_url_eq_iff hasDefault]
        tauto

end Survival

section Main

variable {format : TimeFormat}

/-- Every entry stands under its own name. -/
def Named (entries : EntriesHash) : Prop :=
  ∀ name entry, entries.lookup name = some entry → entry.name = name

theorem Named.insert {entries : EntriesHash} (named : Named entries) {name : Bytes} {entry : Entry}
    (own : entry.name = name) : Named (entries.insert name entry) := by
  intro other found lookup
  by_cases same : other = name
  · subst same
    rw [AList.lookup_insert] at lookup
    cases lookup
    exact own
  · rw [AList.lookup_insert_ne same] at lookup
    exact named other found lookup

theorem Named.erase {entries : EntriesHash} (named : Named entries) (name : Bytes) :
    Named (entries.erase name) := by
  intro other found lookup
  by_cases same : other = name
  · subst same
    simp at lookup
  · rw [AList.lookup_erase_ne same] at lookup
    exact named other found lookup

theorem Named.handleStartTag {entries read : EntriesHash} (named : Named entries) {atts : Atts}
    (handled : handleStartTag format entries atts = .ok read) : Named read := by
  rw [Wc.handleStartTag] at handled
  split at handled
  · cases handled
  · cases handled
    exact named.insert rfl

theorem Named.foldlM_handleStartTag (file : List Atts) :
    ∀ {entries read : EntriesHash}, Named entries →
      file.foldlM (Wc.handleStartTag format) entries = .ok read → Named read := by
  induction file with
  | nil =>
      intro entries read named same
      cases same
      exact named
  | cons atts file ih =>
      intro entries read named folded
      rw [List.foldlM_cons] at folded
      cases handled : Wc.handleStartTag format entries atts with
      | error error =>
          rw [handled] at folded
          cases folded
      | ok next =>
          rw [handled] at folded
          exact ih (named.handleStartTag handled) folded

/-- What a successful reading has checked, and what it has filled in. -/
theorem entriesRead_eq_ok {file : List Atts} {back : EntriesHash}
    (read : entriesRead format file = .ok back) :
    ∃ entries thisDir, file.foldlM (Wc.handleStartTag format) ∅ = .ok entries ∧
      entries.lookup thisDirName = some thisDir ∧ thisDir.revision ≠ invalidRevnum ∧
      thisDir.url ≠ none ∧ back = mapEntries (fillDefaults thisDir) entries := by
  rw [entriesRead] at read
  cases folded : file.foldlM (Wc.handleStartTag format) ∅ with
  | error error =>
      rw [folded] at read
      cases read
  | ok entries =>
      rw [folded] at read
      change resolveToDefaults entries = .ok back at read
      rw [resolveToDefaults] at read
      split at read
      · cases read
      · next thisDir found =>
          split at read
          · cases read
          · next hasRevision =>
              split at read
              · cases read
              · next hasUrl =>
                  cases read
                  exact ⟨entries, thisDir, rfl, found, hasRevision, hasUrl, rfl⟩

theorem fillDefaults_name (thisDir : Entry) (name : Bytes) (entry : Entry) :
    (fillDefaults thisDir name entry).name = entry.name := by
  rw [fillDefaults]
  split
  · rfl
  · split <;> rfl

theorem Named.read {file : List Atts} {entries : EntriesHash}
    (read : entriesRead format file = .ok entries) : Named entries := by
  obtain ⟨tagged, thisDir, folded, -, -, -, rfl⟩ := entriesRead_eq_ok read
  have named := Named.foldlM_handleStartTag file (fun name entry lookup => by simp at lookup) folded
  intro name entry lookup
  rw [lookup_mapEntries, Option.map_eq_some_iff] at lookup
  obtain ⟨before, found, rfl⟩ := lookup
  rw [fillDefaults_name]
  exact named name before found

/-- The entry that is folded into the hash. -/
def mergedEntry (entries : EntriesHash) (name : Bytes) (flags : ModifyFlags) (entry : Entry) : Entry :=
  mergeFields flags entry ((entries.lookup name).getD (allocEntry name))

/-- The entry from which the folded entry takes its defaults. -/
def foldDefault (entries : EntriesHash) (name : Bytes) (merged : Entry) : Option Entry :=
  if name = thisDirName ∧ (entries.lookup name).isSome then some merged else entries.lookup thisDirName

/-- Folding puts the merged entry into the hash, after it has absorbed the defaults. -/
theorem foldEntry_cases {entries modified : EntriesHash} {name : Bytes} {entry : Entry}
    {flags : ModifyFlags} (folded : foldEntry entries name flags entry = .ok modified) :
    ∃ now, modified = entries.insert name now ∧
      (now = mergedEntry entries name flags entry ∨
        ∃ default, foldDefault entries name (mergedEntry entries name flags entry) = some default ∧
          now = takeFromEntry default (mergedEntry entries name flags entry)) := by
  simp only [foldEntry] at folded
  split at folded
  · cases folded
    exact ⟨_, rfl, .inl rfl⟩
  · split at folded
    · cases folded
      exact ⟨_, rfl, .inl rfl⟩
    · next default found =>
        split at folded
        · cases folded
        · cases folded
          exact ⟨_, rfl, .inr ⟨default, found, rfl⟩⟩

theorem Named.mergedEntry {entries : EntriesHash} (named : Named entries) (name : Bytes)
    (flags : ModifyFlags) (entry : Entry) : (mergedEntry entries name flags entry).name = name := by
  show ((entries.lookup name).getD (allocEntry name)).name = name
  cases found : entries.lookup name with
  | none => rfl
  | some entry => exact named name entry found

theorem Named.foldEntry {entries modified : EntriesHash} (named : Named entries) {name : Bytes}
    {entry : Entry} {flags : ModifyFlags}
    (folded : foldEntry entries name flags entry = .ok modified) : Named modified := by
  have own := named.mergedEntry name flags entry
  obtain ⟨now, rfl, rfl | ⟨default, -, rfl⟩⟩ := foldEntry_cases folded
  · exact named.insert own
  · exact named.insert own

/-- Scheduling changes the hash only by removing the entry. -/
theorem foldScheduling_entries {entries scheduled : EntriesHash} {name : Bytes}
    {flags changed : ModifyFlags} {schedule next : Schedule}
    (folded : foldScheduling entries name flags schedule = .ok (scheduled, changed, next)) :
    scheduled = entries ∨ scheduled = entries.erase name := by
  simp only [foldScheduling] at folded
  repeat' split at folded
  all_goals cases folded
  all_goals first
    | exact .inl rfl
    | exact .inr rfl

theorem Named.modify {entries modified : EntriesHash} (named : Named entries) {name : Bytes}
    {entry : Entry} {flags : ModifyFlags}
    (modification : modifyEntries entries name entry flags = .ok modified) : Named modified := by
  rw [modifyEntries] at modification
  split at modification
  · split at modification
    · cases modification
    · next scheduled changed next folded =>
        have stillNamed : Named scheduled := by
          rcases foldScheduling_entries folded with rfl | rfl
          · exact named
          · exact named.erase name
        split at modification
        · cases modification
          exact stillNamed
        · exact stillNamed.foldEntry modification
  · exact named.foldEntry modification

theorem Named.tweak {entries tweaked : EntriesHash} (named : Named entries) {name : Bytes}
    {newUrl : Option Bytes} {newRev : Int64}
    (tweak : tweakEntry entries name newUrl newRev = .ok tweaked) : Named tweaked := by
  rw [tweakEntry] at tweak
  split at tweak
  · cases tweak
  · next entry found =>
      cases tweak
      apply named.insert
      have own := named name entry found
      rw [apply_ite Entry.name]
      cases newUrl <;> simp [own]

theorem Obtained.named {entries : EntriesHash} (obtained : Obtained format entries) :
    Named entries := by
  induction obtained with
  | read read => exact Named.read read
  | modify _ modification named => exact named.modify modification
  | tweak _ tweak named => exact named.tweak tweak

/-- Reading fails unless the directory's own entry has a revision and a url. -/
theorem entriesRead_thisDir {file : List Atts} {back : EntriesHash}
    (read : entriesRead format file = .ok back) :
    ∃ thisDir, back.lookup thisDirName = some thisDir ∧ thisDir.revision ≠ invalidRevnum ∧
      thisDir.url ≠ none := by
  obtain ⟨entries, thisDir, -, found, hasRevision, hasUrl, rfl⟩ := entriesRead_eq_ok read
  refine ⟨thisDir, ?_, hasRevision, hasUrl⟩
  rw [lookup_mapEntries, found, Option.map_some, fillDefaults, if_pos rfl]

/-- The directory's own entry comes back only if it has a revision and a url. -/
theorem RoundTrips.thisDir {path : Bytes} {entries : EntriesHash}
    (trip : RoundTrips format path entries) :
    ∃ thisDir, entries.lookup thisDirName = some thisDir ∧ thisDir.revision ≠ invalidRevnum ∧
      thisDir.url ≠ none := by
  obtain ⟨file, back, -, read, same⟩ := trip
  obtain ⟨thisDir, found, hasRevision, hasUrl⟩ := entriesRead_thisDir read
  rw [same, Option.map_eq_some_iff] at found
  obtain ⟨before, beforeFound, rfl⟩ := found
  rw [clearSubdir, if_neg (fun subdir => subdir.1 rfl)] at hasRevision hasUrl
  exact ⟨before, beforeFound, hasRevision, hasUrl⟩

/-- A revision of the directory that is not valid is not written. -/
theorem valid_of_entriesRead_written {thisDir : Entry} {entries back : EntriesHash}
    (found : entries.lookup thisDirName = some thisDir)
    (read : entriesRead format ((fileEntries thisDir entries).map fun entry =>
      writtenAtts format thisDir entry.1 entry.2) = .ok back) : isValidRevnum thisDir.revision := by
  obtain ⟨tagged, default, folded, default_found, hasRevision, -, -⟩ := entriesRead_eq_ok read
  obtain ⟨again, refolded, lookups⟩ := foldlM_handleStartTag format thisDir
    (fileEntries thisDir entries) ∅ (fileEntries_nodupKeys thisDir entries)
  rw [folded] at refolded
  cases refolded
  rw [lookups, dlookup_fileEntries found, found] at default_found
  cases default_found
  by_contra invalid
  apply hasRevision
  rw [storedUnder, storedEntry, writtenRevision, if_pos rfl, attsToRev_revAtt, storedRev,
    if_neg invalid]

theorem survives_iff_of_lookup {thisDir : Entry} {entries : EntriesHash}
    (obtained : Obtained format entries) (found : entries.lookup thisDirName = some thisDir)
    (hasUrl : thisDir.url ≠ none) (hasRevision : isValidRevnum thisDir.revision)
    (dotFree : entries.lookup [46] = none) {name : Bytes} {entry : Entry}
    (lookup : entries.lookup name = some entry) :
    resolvedEntry thisDir name entry = clearSubdir name entry ↔ EntrySurvives thisDir name entry := by
  apply resolvedEntry_eq_iff hasUrl hasRevision (obtained.named name entry lookup)
  · rintro rfl
    rw [found] at lookup
    exact (Option.some.inj lookup).symm
  · rintro other rfl
    rw [dotFree] at lookup
    cases lookup

end Main

section Theorem

/-- Times as decimal numbers. -/
def decimalTime : TimeFormat where
  toNts := putLong
  fromNts := atol
  fromNts_toNts := atol_putLong
  toNts_ne_working := by
    intro time working
    have zero : time = atol timestampWc := by rw [← working, atol_putLong]
    rw [zero] at working
    exact absurd working (by decide)

def noAtts : Atts :=
  ⟨none, none, none, none, none, none, none, none, none, none, none, none, none, none, none, none,
    none⟩

def directoryAtts : Atts := { noAtts with kind := some dirStr, revision := some [51], url := some [117] }

def fileAtts : Atts := { noAtts with name := some [102], kind := some fileStr }

def directoryEntry : Entry :=
  { allocEntry thisDirName with kind := .dir, revision := 3, url := some [117] }

def fileEntry : Entry :=
  { allocEntry [102] with kind := .file, revision := 3, url := some [117, 47, 102] }

def noFlags : ModifyFlags :=
  ⟨false, false, false, false, false, false, false, false, false, false, false, false, false, false,
    false, false, false⟩

/-- A directory at revision three with one file. -/
def plainEntries : EntriesHash :=
  (AList.insert thisDirName directoryEntry ∅).insert [102] fileEntry

theorem plainEntries_read : entriesRead decimalTime [directoryAtts, fileAtts] = .ok plainEntries := by
  rfl

theorem entries_round_trip_iff {format : TimeFormat} (path : Bytes) {entries : EntriesHash}
    (obtained : Obtained format entries) : RoundTrips format path entries ↔ Survives entries := by
  constructor
  · intro trip
    obtain ⟨thisDir, found, hasRevision, hasUrl⟩ := trip.thisDir
    obtain ⟨file, back, written, read, same⟩ := trip
    obtain ⟨dotFree, rfl⟩ := (entriesWrite_eq_ok_iff format path found hasUrl file).mp written
    have valid := valid_of_entriesRead_written found read
    obtain ⟨again, reread, lookups⟩ := entriesRead_written format found hasUrl valid
    rw [read] at reread
    cases reread
    refine ⟨thisDir, found, valid, hasUrl, ?_⟩
    intro name entry lookup
    have kept := same name
    rw [lookups, lookup] at kept
    exact (survives_iff_of_lookup obtained found hasUrl valid dotFree lookup).mp (Option.some.inj kept)
  · rintro ⟨thisDir, found, hasRevision, hasUrl, survive⟩
    obtain ⟨back, read, lookups⟩ := entriesRead_written format found hasUrl hasRevision
    have dotFree : entries.lookup [46] = none := by
      cases dot : entries.lookup [46] with
      | none => rfl
      | some entry => exact absurd rfl ((survive _ _ dot).own (by decide)).1
    refine ⟨_, back, (entriesWrite_eq_ok_iff format path found hasUrl _).mpr ⟨dotFree, rfl⟩, read, ?_⟩
    intro name
    rw [lookups]
    cases lookup : entries.lookup name with
    | none => rfl
    | some entry =>
        rw [Option.map_some, Option.map_some]
        congr 1
        exact (survives_iff_of_lookup obtained found hasUrl hasRevision dotFree lookup).mpr
          (survive name entry lookup)

theorem entries_round_trip_plain : RoundTrips decimalTime [] plainEntries := by
  apply (entries_round_trip_iff [] (.read plainEntries_read)).mpr
  refine ⟨directoryEntry, rfl, by decide, by decide, ?_⟩
  intro name entry lookup
  by_cases file : name = [102]
  · subst file
    cases lookup
    exact ⟨by decide, .inl rfl, .inl rfl, fun _ => ⟨by decide, by decide, by decide⟩⟩
  · rw [plainEntries, AList.lookup_insert_ne file] at lookup
    by_cases own : name = thisDirName
    · subst own
      cases lookup
      exact ⟨by decide, .inl rfl, .inl rfl, fun other => absurd rfl other⟩
    · rw [AList.lookup_insert_ne own] at lookup
      cases lookup

/-- The same file after it is scheduled for replacement. -/
def replacedEntries : EntriesHash :=
  plainEntries.insert [102] { fileEntry with schedule := .replace }

theorem replacedEntries_obtained : Obtained decimalTime replacedEntries := by
  apply Obtained.modify (.read plainEntries_read)
  show modifyEntries plainEntries [102] { allocEntry [102] with schedule := .replace }
    { noFlags with schedule := true } = .ok replacedEntries
  rfl

/-- The url is left out because it can be derived, and the reader does not derive it. -/
theorem replaced_file_loses_its_url :
    ∃ entries, Obtained decimalTime entries ∧ ¬ RoundTrips decimalTime [] entries := by
  refine ⟨replacedEntries, replacedEntries_obtained, ?_⟩
  rintro ⟨file, back, written, read, same⟩
  have writes : entriesWrite decimalTime [] replacedEntries = .ok
      [entryAtts decimalTime directoryEntry thisDirName, { fileAtts with schedule := some replaceStr }] := by
    rfl
  rw [writes] at written
  cases written
  have reads : entriesRead decimalTime [entryAtts decimalTime directoryEntry thisDirName,
      { fileAtts with schedule := some replaceStr }] = .ok
        ((AList.insert thisDirName directoryEntry ∅).insert [102]
          { fileEntry with schedule := .replace, url := none }) := by
    rfl
  rw [reads] at read
  cases read
  exact absurd (same [102]) (by decide)

end Theorem

end Subversion.Wc
