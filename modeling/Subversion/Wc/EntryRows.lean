/-
This file follows the entries of a directory through the writing of their file.
-/

import Subversion.Wc.Revert

namespace Subversion.Wc

open Delta Subr Lib

/-- What is left of an entry after its file was written and read again, apart from its revision and its url. -/
@[ext]
structure Row where
  kind : NodeKind
  schedule : Schedule
  copied : Bool
  copyfromUrl : Option Bytes
  copyfromRev : Int64
  conflictOld : Option Bytes
  conflictNew : Option Bytes
  conflictWrk : Option Bytes
  prejfile : Option Bytes
  textTime : Int64
  propTime : Int64

def Entry.row (entry : Entry) : Row where
  kind := storedKind entry.kind
  schedule := entry.schedule
  copied := entry.copied
  copyfromUrl := entry.copyfromUrl
  copyfromRev := storedRev entry.copyfromRev
  conflictOld := entry.conflictOld
  conflictNew := entry.conflictNew
  conflictWrk := entry.conflictWrk
  prejfile := entry.prejfile
  textTime := entry.textTime
  propTime := entry.propTime

def rowIn (entries : EntriesHash) (name : Bytes) : Option Row := (entries.lookup name).map Entry.row

def thisUrl (entries : EntriesHash) : Option Bytes := (entries.lookup thisDirName).bind Entry.url

/-- The url of an entry, if there is one, is the one that its name has below the directory. -/
def UrlFits (entries : EntriesHash) (name : Bytes) : Prop :=
  ∀ entry, entries.lookup name = some entry →
    entry.url = none ∨ entry.url = (thisUrl entries).map (addComponent · name)

/-- The file gives these entries, and the directory's own one has a revision that can be written. -/
structure Readable (format : TimeFormat) (file : List Atts) (entries : EntriesHash) : Prop where
  read : entriesRead format file = .ok entries
  revision : ∀ thisDir, entries.lookup thisDirName = some thisDir → isValidRevnum thisDir.revision

def Reset.apply (reset : Reset) (new old : Row) : Row where
  kind := old.kind
  schedule := if reset.schedule then new.schedule else old.schedule
  copied := old.copied
  copyfromUrl := old.copyfromUrl
  copyfromRev := old.copyfromRev
  conflictOld := if reset.conflictOld then new.conflictOld else old.conflictOld
  conflictNew := if reset.conflictNew then new.conflictNew else old.conflictNew
  conflictWrk := if reset.conflictWrk then new.conflictWrk else old.conflictWrk
  prejfile := if reset.prejfile then new.prejfile else old.prejfile
  textTime := if reset.textTime then new.textTime else old.textTime
  propTime := if reset.propTime then new.propTime else old.propTime

section Writing

variable {format : TimeFormat} {path : Bytes} {entries : EntriesHash} {thisDir : Entry}

theorem storedRev_storedRev (revision : Int64) : storedRev (storedRev revision) = storedRev revision := by
  rw [storedRev]
  by_cases valid : isValidRevnum revision
  · have kept : storedRev revision = revision := if_pos valid
    rw [kept, if_pos valid]
  · have unset : storedRev revision = invalidRevnum := if_neg valid
    rw [unset]
    exact ite_self _

theorem fillDefaults_row (src : Entry) (name : Bytes) (entry : Entry) :
    (fillDefaults src name entry).row = entry.row := by
  rw [fillDefaults]
  split
  · rfl
  · split <;> rfl

theorem resolvedEntry_row (thisDir : Entry) (name : Bytes) (entry : Entry) :
    (resolvedEntry thisDir name entry).row = entry.row := by
  rw [resolvedEntry, fillDefaults_row]
  have kind : storedKind (storedKind entry.kind) = storedKind entry.kind := by cases entry.kind <;> rfl
  have revision := storedRev_storedRev entry.copyfromRev
  simp only [Entry.row, storedUnder, storedEntry, kind, revision]

theorem takeFromEntry_url (src dst : Entry) : (takeFromEntry src dst).url = dst.url ∨
    (takeFromEntry src dst).url = src.url.map (addComponent · dst.name) := by
  by_cases inherits : inheritsUrl dst
  · exact .inr (if_pos inherits)
  · exact .inl (if_neg inherits)

/-- A url that fits is left out or derived again. -/
theorem resolvedEntry_url_fits {name : Bytes} {entry : Entry} (other : name ≠ thisDirName)
    (fits : entry.url = none ∨ entry.url = thisDir.url.map (addComponent · name)) :
    (resolvedEntry thisDir name entry).url = none ∨
      (resolvedEntry thisDir name entry).url = thisDir.url.map (addComponent · name) := by
  have stored : (storedUnder thisDir name entry).url = none := by
    show writtenUrl thisDir name entry = none
    rw [writtenUrl, if_neg other]
    rcases fits with unset | same
    · rw [unset, ite_self]
    · rw [if_pos (.inr same)]
  rw [resolvedEntry, fillDefaults, if_neg other]
  split
  · rcases takeFromEntry_url (storedUnder thisDir thisDirName thisDir) (storedUnder thisDir name entry) with
      same | inherited
    · rw [same]
      exact .inl stored
    · rw [inherited, storedUnder_thisDir_url]
      exact .inr rfl
  · exact .inl stored

/-- The entries that come back from a file that was written. -/
theorem rows_written (found : entries.lookup thisDirName = some thisDir) (hasUrl : thisDir.url ≠ none)
    (valid : isValidRevnum thisDir.revision) {file : List Atts}
    (written : entriesWrite format path entries = .ok file) :
    ∃ back, Readable format file back ∧ (∀ name, rowIn back name = rowIn entries name) ∧
      thisUrl back = thisUrl entries ∧
      ∀ name, name ≠ thisDirName → UrlFits entries name → UrlFits back name := by
  obtain ⟨-, rfl⟩ := (entriesWrite_eq_ok_iff format path found hasUrl _).mp written
  obtain ⟨back, read, lookups⟩ := entriesRead_written format found hasUrl valid
  have ownUrl : (resolvedEntry thisDir thisDirName thisDir).url = thisDir.url := by
    rw [resolvedEntry, fillDefaults, if_pos rfl]
    exact storedUnder_thisDir_url
  have sameUrl : thisUrl back = thisUrl entries := by
    rw [thisUrl, thisUrl, lookups, found]
    exact ownUrl
  refine ⟨back, ⟨read, ?_⟩, ?_, sameUrl, ?_⟩
  · intro own isOwn
    rw [lookups, found] at isOwn
    cases isOwn
    show isValidRevnum (resolvedEntry thisDir thisDirName thisDir).revision
    rw [resolvedEntry, fillDefaults, if_pos rfl, storedUnder_thisDir_revision valid]
    exact valid
  · intro name
    rw [rowIn, lookups, Option.map_map, rowIn]
    exact congrFun (congrArg Option.map (funext fun entry => resolvedEntry_row thisDir name entry)) _
  · intro name other fits row isRow
    rw [lookups] at isRow
    obtain ⟨entry, isEntry, rfl⟩ := Option.map_eq_some_iff.mp isRow
    have isUrl : thisUrl entries = thisDir.url := by
      rw [thisUrl, found]
      rfl
    rw [sameUrl, isUrl]
    have entryFits := fits entry isEntry
    rw [isUrl] at entryFits
    exact resolvedEntry_url_fits other entryFits

end Writing

section Modifying

variable {format : TimeFormat} {path : Bytes} {entries : EntriesHash} {file after : List Atts}

/-- What becomes of the other names when the entry of one name is changed. -/
structure OthersKept (name : Bytes) (entries back : EntriesHash) : Prop where
  rows : ∀ other, other ≠ name → rowIn back other = rowIn entries other
  url : thisUrl back = thisUrl entries
  fits : ∀ other, other ≠ thisDirName → UrlFits entries other → UrlFits back other

theorem Readable.thisDir (readable : Readable format file entries) :
    ∃ thisDir, entries.lookup thisDirName = some thisDir ∧ thisDir.url ≠ none ∧
      isValidRevnum thisDir.revision := by
  obtain ⟨thisDir, found, -, hasUrl⟩ := entriesRead_thisDir readable.read
  exact ⟨thisDir, found, hasUrl, readable.revision thisDir found⟩

theorem attsToKind_known {name : Bytes} {given : Option Bytes} {kind : NodeKind}
    (converted : attsToKind name given = .ok kind) : kind ≠ .unknown := by
  rintro rfl
  cases given with
  | none => cases converted
  | some kindstr =>
      rw [attsToKind] at converted
      split at converted
      case isTrue => cases converted
      case isFalse => split at converted <;> cases converted

/-- An entry that was read has a kind that a file can hold. -/
theorem Readable.kind {name : Bytes} {entry : Entry} (readable : Readable format file entries)
    (found : entries.lookup name = some entry) : entry.row.kind = entry.kind := by
  obtain ⟨tagged, thisDir, folded, -, -, -, rfl⟩ := entriesRead_eq_ok readable.read
  rw [lookup_mapEntries, Option.map_eq_some_iff] at found
  obtain ⟨before, isBefore, rfl⟩ := found
  have known : ∀ name entry, tagged.lookup name = some entry → entry.kind ≠ .unknown := by
    refine GuardedRuns.foldlM_keeps (fun entries => ∀ name entry, entries.lookup name = some entry →
      entry.kind ≠ .unknown) file ?_ ?_ folded
    · intro atts _ state next known handled name entry isEntry
      rw [handleStartTag] at handled
      split at handled
      case h_1 => cases handled
      case h_2 added flags converted =>
        cases handled
        obtain ⟨kind, isKind, rest⟩ := bind_eq_ok converted
        obtain ⟨schedule, -, rest⟩ := bind_eq_ok rest
        obtain ⟨copied, -, done⟩ := bind_eq_ok rest
        cases done
        by_cases same : name = atts.name.getD thisDirName
        · rw [same, AList.lookup_insert] at isEntry
          cases isEntry
          exact attsToKind_known isKind
        · rw [AList.lookup_insert_ne same] at isEntry
          exact known name entry isEntry
    · intro name entry isEntry
      cases isEntry
  have sameKind : (fillDefaults thisDir name before).kind = before.kind := by
    rw [fillDefaults]
    split
    · rfl
    · split <;> rfl
  exact (storedKind_eq_self_iff _).mpr (sameKind ▸ known name before isBefore)

theorem modifyEntries_forced {name : Bytes} {row entry : Entry} (found : entries.lookup name = some row)
    (reset : Reset) :
    modifyEntries entries name entry reset.flags = foldEntry entries name reset.flags entry := by
  rw [modifyEntries]
  by_cases scheduled : reset.flags.schedule = true
  · have kept : foldScheduling entries name reset.flags entry.schedule =
        .ok (entries, reset.flags, entry.schedule) := by
      have forced : reset.flags.force = true := rfl
      rw [foldScheduling, scheduled, forced, if_neg (by decide), if_pos rfl]
    rw [if_pos scheduled, kept]
    dsimp only
    rw [found, if_neg fun gone => Option.some_ne_none _ gone.2]
  · rw [if_neg scheduled]

theorem mergedEntry_row {name : Bytes} {row : Entry} (found : entries.lookup name = some row) (reset : Reset)
    (entry : Entry) : (mergedEntry entries name reset.flags entry).row = reset.apply entry.row row.row := by
  rw [mergedEntry, found]
  rfl

theorem mergedEntry_url {name : Bytes} {row : Entry} (found : entries.lookup name = some row) (reset : Reset)
    (entry : Entry) : (mergedEntry entries name reset.flags entry).url = row.url ∧
      (mergedEntry entries name reset.flags entry).revision = row.revision := by
  rw [mergedEntry, found]
  exact ⟨rfl, rfl⟩

/-- The directory's own entry keeps its url and its revision. -/
theorem insert_thisDir {name : Bytes} {row entry now thisDir : Entry} {reset : Reset}
    (own : entries.lookup thisDirName = some thisDir) (hasUrl : thisDir.url ≠ none)
    (found : entries.lookup name = some row)
    (outcome : now = mergedEntry entries name reset.flags entry ∨
      ∃ default, foldDefault entries name (mergedEntry entries name reset.flags entry) = some default ∧
        now = takeFromEntry default (mergedEntry entries name reset.flags entry)) :
    ∃ after, (entries.insert name now).lookup thisDirName = some after ∧ after.url = thisDir.url ∧
      after.revision = thisDir.revision := by
  by_cases isOwn : thisDirName = name
  · subst isOwn
    obtain rfl : thisDir = row := Option.some.inj (own.symm.trans found)
    obtain ⟨url, revision⟩ := mergedEntry_url found reset entry
    refine ⟨now, AList.lookup_insert entries, ?_⟩
    rcases outcome with rfl | ⟨default, isDefault, rfl⟩
    · exact ⟨url, revision⟩
    · rw [foldDefault, found, if_pos ⟨rfl, rfl⟩] at isDefault
      cases isDefault
      refine ⟨?_, (ite_self _).trans revision⟩
      rw [← url]
      exact if_neg fun inherits => hasUrl (url.symm.trans inherits.1)
  · refine ⟨thisDir, ?_, rfl, rfl⟩
    rw [AList.lookup_insert_ne isOwn, own]

/-- The entry of the name takes what is reset, and all other entries stay. -/
theorem entryModify_rows {name : Option Bytes} {row entry : Entry} {reset : Reset}
    (readable : Readable format file entries) (found : entries.lookup (name.getD thisDirName) = some row)
    (modified : entryModify format path file name entry reset.flags = .ok after) :
    ∃ back, Readable format after back ∧ OthersKept (name.getD thisDirName) entries back ∧
      rowIn back (name.getD thisDirName) = some (reset.apply entry.row row.row) := by
  obtain ⟨again, read, rest⟩ := bind_eq_ok modified
  obtain rfl : entries = again := Except.ok.inj (readable.read.symm.trans read)
  obtain ⟨folded, change, written⟩ := bind_eq_ok rest
  generalize name.getD thisDirName = name at *
  rw [modifyEntries_forced found] at change
  obtain ⟨now, rfl, outcome⟩ := foldEntry_cases change
  obtain ⟨thisDir, own, hasUrl, valid⟩ := readable.thisDir
  obtain ⟨kept, isKept, sameUrl, sameRevision⟩ := insert_thisDir own hasUrl found outcome
  have isRow : now.row = reset.apply entry.row row.row := by
    rw [← mergedEntry_row found reset entry]
    rcases outcome with rfl | ⟨default, -, rfl⟩ <;> rfl
  obtain ⟨back, reads, rows, url, fits⟩ :=
    rows_written isKept (sameUrl ▸ hasUrl) (sameRevision ▸ valid) written
  have insertUrl : thisUrl (entries.insert name now) = thisUrl entries := by
    rw [thisUrl, thisUrl, isKept, own]
    exact sameUrl
  refine ⟨back, reads, ⟨?_, url.trans insertUrl, ?_⟩, ?_⟩
  · intro other differs
    rw [rows, rowIn, AList.lookup_insert_ne differs, rowIn]
  · intro other named fit
    apply fits other named
    intro found' isFound
    rw [insertUrl]
    by_cases same : other = name
    · subst same
      rw [AList.lookup_insert] at isFound
      cases isFound
      have merged : (mergedEntry entries other reset.flags entry).url = row.url :=
        (mergedEntry_url found reset entry).1
      rcases outcome with rfl | ⟨default, isDefault, rfl⟩
      · rw [merged]
        exact fit row found
      · rw [foldDefault, if_neg fun own => named own.1, own] at isDefault
        cases isDefault
        have isName := (Named.read readable.read).mergedEntry other reset.flags entry
        have isUrl : thisUrl entries = thisDir.url := by rw [thisUrl, own]; rfl
        rcases takeFromEntry_url thisDir (mergedEntry entries other reset.flags entry) with same | inherited
        · rw [same, merged]
          exact fit row found
        · rw [inherited, isName, isUrl]
          exact .inr rfl
    · rw [AList.lookup_insert_ne same] at isFound
      exact fit found' isFound
  · rw [rows, rowIn, AList.lookup_insert, Option.map_some, isRow]

/-- An entry that is removed is not there any more. -/
theorem removeFromEntries_rows {adm : Adm} {name : Bytes} {removed : Adm}
    (readable : Readable format adm.entries entries)
    (removal : removeFromEntries format path adm name = .ok removed) :
    ∃ back, Readable format removed.entries back ∧ OthersKept name entries back ∧ rowIn back name = none := by
  obtain ⟨again, read, rest⟩ := bind_eq_ok removal
  obtain rfl : entries = again := Except.ok.inj (readable.read.symm.trans read)
  obtain ⟨file, written, done⟩ := bind_eq_ok rest
  cases done
  obtain ⟨thisDir, found, hasUrl, valid⟩ := readable.thisDir
  have differs : thisDirName ≠ name := by
    rintro rfl
    rw [entriesWrite, AList.lookup_erase] at written
    cases written
  have stays : (entries.erase name).lookup thisDirName = some thisDir := by
    rw [AList.lookup_erase_ne differs, found]
  have eraseUrl : thisUrl (entries.erase name) = thisUrl entries := by rw [thisUrl, thisUrl, stays, found]
  obtain ⟨back, reads, rows, url, fits⟩ := rows_written stays hasUrl valid written
  refine ⟨back, reads, ⟨?_, url.trans eraseUrl, ?_⟩, ?_⟩
  · intro other differs
    rw [rows, rowIn, AList.lookup_erase_ne differs, rowIn]
  · intro other named fit
    apply fits other named
    intro entry isEntry
    by_cases same : other = name
    · rw [same, AList.lookup_erase] at isEntry
      cases isEntry
    · rw [AList.lookup_erase_ne same] at isEntry
      rw [eraseUrl]
      exact fit entry isEntry
  · rw [rows, rowIn, AList.lookup_erase, Option.map_none]

end Modifying

end Subversion.Wc
