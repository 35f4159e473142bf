/-
This file shows what a removal from revision control leaves of a file and of a directory tree.
-/

import Subversion.Wc.Removal

namespace Subversion.Wc

open Delta Subr Lib

section Entries

variable {format : TimeFormat} {path : Bytes}

/-- Says whether a directory has an entry of the name. -/
def HasEntry (entries : List Atts) (name : Bytes) : Prop := ∃ atts ∈ entries, atts.name.getD thisDirName = name

/-- If the second file can be read, then so can the first, and both have the same time for the name. -/
def TimesFrom (format : TimeFormat) (before after : List Atts) (name : Bytes) : Prop :=
  ∀ now, entriesRead format after = .ok now → ∃ entries, entriesRead format before = .ok entries ∧
    (now.lookup name).map (·.textTime) = (entries.lookup name).map (·.textTime)

theorem TimesFrom.refl (entries : List Atts) (name : Bytes) : TimesFrom format entries entries name :=
  fun now read => ⟨now, read, rfl⟩

theorem TimesFrom.trans {first second third : List Atts} {name : Bytes}
    (early : TimesFrom format first second name) (late : TimesFrom format second third name) : TimesFrom format first third name := by
  intro now read
  obtain ⟨middle, readMiddle, sameLate⟩ := late now read
  obtain ⟨entries, readFirst, sameEarly⟩ := early middle readMiddle
  exact ⟨entries, readFirst, sameLate.trans sameEarly⟩

theorem hasEntry_of_lookup {file : List Atts} {entries : EntriesHash} {name : Bytes} {entry : Entry}
    (read : entriesRead format file = .ok entries) (found : entries.lookup name = some entry) :
    HasEntry file name := by
  obtain ⟨atts, member, own, _⟩ := entriesRead_lookup read found
  exact ⟨atts, member, own⟩

theorem removeFromEntries_spec {adm after : Adm} {name : Bytes}
    (removed : removeFromEntries format path adm name = .ok after) :
    ∃ file, after = { adm with entries := file } ∧ ¬ HasEntry file name ∧
      ∀ other, other ≠ name → TimesFrom format adm.entries file other := by
  obtain ⟨entries, read, rest⟩ := bind_eq_ok removed
  obtain ⟨file, written, done⟩ := bind_eq_ok rest
  cases done
  refine ⟨file, rfl, ?_, ?_⟩
  · rintro ⟨atts, member, own⟩
    obtain ⟨other, entry, found, isName, _⟩ := (entriesWrite_lookup written).2 atts member
    rw [isName, Option.getD_some] at own
    rw [own, AList.lookup_erase] at found
    cases found
  · intro other differs now readAgain
    obtain ⟨thisDir, found, -, hasUrl⟩ := entriesRead_thisDir read
    refine ⟨entries, read, ?_⟩
    have isThere : (entries.erase name).lookup thisDirName = some thisDir := by
      obtain ⟨⟨atts, member, own⟩, lists⟩ := entriesWrite_lookup written
      obtain ⟨listed, entry, stays, isName, _⟩ := lists atts member
      obtain rfl : thisDirName = listed := Option.some.inj (own.symm.trans isName)
      by_cases same : thisDirName = name
      · rw [same, AList.lookup_erase] at stays
        cases stays
      · rw [AList.lookup_erase_ne same, found]
    obtain ⟨-, rfl⟩ := (entriesWrite_eq_ok_iff format path isThere hasUrl _).mp written
    have valid := valid_of_entriesRead_written isThere readAgain
    obtain ⟨back, reread, lookups⟩ := entriesRead_written format isThere hasUrl valid
    rw [readAgain] at reread
    cases reread
    rw [lookups, AList.lookup_erase_ne differs, Option.map_map]
    exact congrFun (congrArg Option.map (funext fun entry => resolvedEntry_textTime thisDir other entry)) _

end Entries

/-- What a removal leaves of the names that it is not about. -/
structure Untouched (format : TimeFormat) (touched : Bytes → Prop) (before after : WcDir) : Prop where
  inner : ∀ name, ¬ touched name → after.inner.lookup name = before.inner.lookup name
  textBase : ∀ name, ¬ touched name → after.adm.textBase name = before.adm.textBase name
  props : ∀ name, ¬ touched name → after.adm.props name = before.adm.props name
  times : ∀ name, ¬ touched name → TimesFrom format before.adm.entries after.adm.entries name

section Frame

variable {translator : Translator} {format : TimeFormat} {touched others : Bytes → Prop}
  {before middle after : WcDir} {path name : Bytes}

theorem Untouched.refl (dir : WcDir) : Untouched format touched dir dir where
  inner := fun _ _ => rfl
  textBase := fun _ _ => rfl
  props := fun _ _ => rfl
  times := fun name _ => TimesFrom.refl dir.adm.entries name

theorem Untouched.trans (early : Untouched format touched before middle)
    (late : Untouched format others middle after) :
    Untouched format (fun name => touched name ∨ others name) before after where
  inner := fun name free => (late.inner name fun isOther => free (.inr isOther)).trans
    (early.inner name fun isTouched => free (.inl isTouched))
  textBase := fun name free => (late.textBase name fun isOther => free (.inr isOther)).trans
    (early.textBase name fun isTouched => free (.inl isTouched))
  props := fun name free => (late.props name fun isOther => free (.inr isOther)).trans
    (early.props name fun isTouched => free (.inl isTouched))
  times := fun name free => (early.times name fun isTouched => free (.inl isTouched)).trans
    (late.times name fun isOther => free (.inr isOther))

theorem Untouched.mono (untouched : Untouched format touched before after)
    (more : ∀ name, touched name → others name) : Untouched format others before after where
  inner := fun name free => untouched.inner name fun isTouched => free (more name isTouched)
  textBase := fun name free => untouched.textBase name fun isTouched => free (more name isTouched)
  props := fun name free => untouched.props name fun isTouched => free (more name isTouched)
  times := fun name free => untouched.times name fun isTouched => free (more name isTouched)

theorem timestampsEqualP_eq_ok_iff {working : Stamped} {area : FileArea} {equal : Bool} :
    timestampsEqualP format name working area = .ok equal ↔
      ∃ entries, entriesRead format area.entries = .ok entries ∧
        ∃ time, (entries.lookup name).map (·.textTime) = some time ∧
          equal = decide (time ≠ 0 ∧ format.fromNts (format.toNts working.time) = time) := by
  constructor
  · intro compared
    obtain ⟨entries, read, rest⟩ := bind_eq_ok compared
    refine ⟨entries, read, ?_⟩
    cases found : entries.lookup name with
    | none =>
        rw [found] at rest
        cases rest
    | some entry =>
        rw [found] at rest
        cases rest
        exact ⟨entry.textTime, rfl, rfl⟩
  · rintro ⟨entries, read, time, hasTime, rfl⟩
    obtain ⟨entry, found, rfl⟩ := Option.map_eq_some_iff.mp hasTime
    change (entriesRead format area.entries >>= _) = _
    rw [read, ok_bind, found]
    rfl

theorem Untouched.working (untouched : Untouched format touched before after) (free : ¬ touched name) :
    after.working name = before.working name := by
  rw [WcDir.working, WcDir.working, untouched.inner name free]

/-- The check of an untouched file gives what it gave before. -/
theorem Untouched.textModifiedP (untouched : Untouched format touched before after) (free : ¬ touched name)
    {modified : Bool} (checked : textModifiedP translator format name (after.area name) = .ok modified) :
    textModifiedP translator format name (before.area name) = .ok modified := by
  have sameWorking := untouched.working free
  have sameBase : (after.area name).textBase = (before.area name).textBase := untouched.textBase name free
  have sameProps : (after.area name).props = (before.area name).props := untouched.props name free
  rw [Wc.textModifiedP.eq_def] at checked ⊢
  change (after.area name).working = (before.area name).working at sameWorking
  rw [sameWorking] at checked
  cases present : (before.area name).working with
  | none =>
      rw [present] at checked
      exact checked
  | some working =>
      rw [present] at checked
      obtain ⟨equal, timestamps, rest⟩ := bind_eq_ok checked
      obtain ⟨now, read, time, found, rfl⟩ := timestampsEqualP_eq_ok_iff.mp timestamps
      obtain ⟨entries, readBefore, sameTime⟩ := untouched.times name free now read
      have timestampsBefore : timestampsEqualP format name working (before.area name) = .ok _ :=
        timestampsEqualP_eq_ok_iff.mpr ⟨entries, readBefore, time, sameTime ▸ found, rfl⟩
      have sameCheck : versionedFileModcheck translator (after.area name) =
          versionedFileModcheck translator (before.area name) := by
        funext base
        rw [versionedFileModcheck, versionedFileModcheck, sameWorking, sameProps]
      change (timestampsEqualP format name working (before.area name) >>= _) = _
      rw [timestampsBefore, ok_bind]
      rw [sameBase, sameCheck] at rest
      exact rest

end Frame

/-- A file below a node, by its path. -/
def Node.fileAt : List Bytes → Node → Option Stamped
  | [], .file found => some found
  | [], .dir _ _ => none
  | _ :: _, .file _ => none
  | name :: path, .dir _ inner => (inner.lookup name).bind (fileAt path)

/-- The administrative area of a directory below a node. -/
def Node.areaAt : List Bytes → Node → Option Adm
  | [], .dir adm _ => adm
  | _, .file _ => none
  | name :: path, .dir _ inner => (inner.lookup name).bind (areaAt path)

/-- What revision control says of a path. -/
inductive Standing where
  | unversioned
  | modifiedFile
  | plainFile
  | directory
  deriving DecidableEq, Repr

section Standings

variable (translator : Translator) (format : TimeFormat)

def WcDir.kindOf (dir : WcDir) (name : Bytes) : Option NodeKind :=
  if name = thisDirName then none
  else
    match entriesRead format dir.adm.entries with
    | .ok entries => (entries.lookup name).map (·.kind)
    | .error _ => none

def WcDir.modified (dir : WcDir) (name : Bytes) : Bool :=
  match textModifiedP translator format name (dir.area name) with
  | .ok modified => modified
  | .error _ => false

def WcDir.below (dir : WcDir) (name : Bytes) : Option WcDir :=
  match dir.inner.lookup name with
  | some (.dir (some own) inner) => some ⟨own, inner⟩
  | _ => none

def fileStanding (dir : WcDir) (name : Bytes) : List Bytes → Standing
  | [] =>
      if (dir.working name).isSome then
        if dir.modified translator format name then .modifiedFile else .plainFile
      else .unversioned
  | _ :: _ => .unversioned

/-- The entries lead down to the directories that they list. -/
def standing : List Bytes → WcDir → Standing
  | [], _ => .directory
  | name :: path, dir =>
      match dir.kindOf format name with
      | some .file => fileStanding translator format dir name path
      | some .dir => (dir.below name).elim .unversioned (standing path)
      | _ => .unversioned

def itemStanding (dir : WcDir) : Item → List Bytes → Standing
  | .file name, path => fileStanding translator format dir name path
  | .thisDir name, path => (dir.below name).elim .unversioned (standing translator format path)

end Standings

/-- The files of which nothing was changed are gone, all other files are there as they were, and no directory
under revision control has kept its administrative area. -/
structure Swept (standing : List Bytes → Standing) (before after : Option Node) : Prop where
  files : ∀ path, after.bind (Node.fileAt path) =
    if standing path = .plainFile then none else before.bind (Node.fileAt path)
  areas : ∀ path, standing path = .directory → after.bind (Node.areaAt path) = none

section Trees

variable {translator : Translator} {format : TimeFormat}

theorem Swept.unversioned {standing : List Bytes → Standing} (node : Option Node)
    (free : ∀ path, standing path = .unversioned) : Swept standing node node where
  files := fun path => by rw [free path, if_neg nofun]
  areas := fun path isDirectory => by
    rw [free path] at isDirectory
    cases isDirectory

/-- A directory is swept if everything in it is. -/
theorem Swept.dir {dir : WcDir} {inner : List (Bytes × Node)}
    (each : ∀ name, Swept (fun path => standing translator format (name :: path) dir) (dir.inner.lookup name)
      (inner.lookup name)) :
    Swept (fun path => standing translator format path dir) (some (.dir (some dir.adm) dir.inner))
      (some (.dir none inner)) where
  files := fun path => by
    cases path with
    | nil => rfl
    | cons name path => exact (each name).files path
  areas := fun path isDirectory => by
    cases path with
    | nil => rfl
    | cons name path => exact (each name).areas path isDirectory

/-- An empty directory may go. -/
theorem Swept.gone {standing : List Bytes → Standing} {before : Option Node} {adm : Option Adm}
    (swept : Swept standing before (some (.dir adm []))) : Swept standing before none where
  files := fun path => by
    rw [← swept.files path]
    cases path <;> rfl
  areas := fun _ _ => rfl

theorem standing_file {dir : WcDir} {name : Bytes} (isFile : dir.kindOf format name = some .file)
    (path : List Bytes) :
    standing translator format (name :: path) dir = fileStanding translator format dir name path := by
  rw [standing, isFile]

theorem standing_below {dir below : WcDir} {name : Bytes} (isDir : dir.kindOf format name = some .dir)
    (isBelow : dir.below name = some below) (path : List Bytes) :
    standing translator format (name :: path) dir = standing translator format path below := by
  rw [standing, isDir, isBelow]
  rfl

/-- What is neither a file nor a directory for the entries is not under revision control. -/
theorem standing_unversioned {dir : WcDir} {name : Bytes} (noFile : dir.kindOf format name ≠ some .file)
    (noDir : dir.kindOf format name ≠ some .dir) (path : List Bytes) :
    standing translator format (name :: path) dir = .unversioned := by
  rw [standing]
  split
  case h_1 isFile => exact absurd isFile noFile
  case h_2 isDir => exact absurd isDir noDir
  case h_3 => rfl

/-- What the loop over the entries passes by is not under revision control. -/
theorem standing_passed {dir : WcDir} {entry : Sigma fun _ : Bytes => Entry}
    (listed : entry.1 ≠ thisDirName → dir.kindOf format entry.1 = some entry.2.kind)
    (noFile : ¬ entry.2.kind = .file) (noDir : ¬ (entry.1 ≠ thisDirName ∧ entry.2.kind = .dir))
    (path : List Bytes) : standing translator format (entry.1 :: path) dir = .unversioned := by
  by_cases own : entry.1 = thisDirName
  · have noKind : dir.kindOf format entry.1 = none := by rw [WcDir.kindOf, if_pos own]
    exact standing_unversioned (by rw [noKind]; nofun) (by rw [noKind]; nofun) path
  · refine standing_unversioned ?_ ?_ path
    · rw [listed own]
      exact fun isFile => noFile (Option.some.inj isFile)
    · rw [listed own]
      exact fun isDir => noDir ⟨own, Option.some.inj isDir⟩

end Trees

/-- No file of the administrative area belongs to the name. -/
structure Adm.Bare (adm : Adm) (name : Bytes) : Prop where
  textBase : adm.textBase name = none
  props : adm.props name = none
  propBase : adm.propBase name = none
  wcprops : adm.wcprops name = none

/-- What the removal of a file does, as the check of the file says. -/
structure FileRemoved (translator : Translator) (format : TimeFormat) (dir : WcDir) (name : Bytes)
    (removal : Removal) : Prop where
  untouched : Untouched format (· = name) dir removal.dir
  checked : textModifiedP translator format name (dir.area name) = .ok removal.left
  kept : removal.left = true → removal.dir = dir
  gone : removal.left = false → removal.dir.inner.lookup name = none
  noDir : removal.left = false → ∀ adm inner, dir.inner.lookup name ≠ some (.dir adm inner)
  noEntry : removal.left = false → ¬ HasEntry removal.dir.adm.entries name
  bare : removal.left = false → removal.dir.adm.Bare name

section Files

variable {translator : Translator} {format : TimeFormat} {path name : Bytes} {dir : WcDir} {removal : Removal}

theorem removeFileIfPresent_spec {inner after : List (Bytes × Node)}
    (removed : removeFileIfPresent path inner name = .ok after) :
    after.lookup name = none ∧ (∀ other, other ≠ name → after.lookup other = inner.lookup other) ∧
      ∀ adm below, inner.lookup name ≠ some (.dir adm below) := by
  rw [removeFileIfPresent] at removed
  split at removed
  case h_1 absent =>
    cases removed
    exact ⟨absent, fun _ _ => rfl, fun _ _ found => by rw [absent] at found; cases found⟩
  case h_2 file present =>
    cases removed
    refine ⟨by rw [lookup_erased, if_pos rfl], fun other differs => by rw [lookup_erased, if_neg differs], ?_⟩
    intro _ _ found
    rw [present] at found
    cases found
  case h_3 => cases removed

theorem removeFile_spec (removed : removeFile translator format path dir name true = .ok removal) :
    FileRemoved translator format dir name removal := by
  obtain ⟨modified, checked, rest⟩ := bind_eq_ok removed
  rw [if_pos rfl] at checked
  cases modified with
  | true =>
      cases rest
      exact ⟨.refl dir, checked, fun _ => rfl, nofun, nofun, nofun, nofun⟩
  | false =>
      obtain ⟨inner, isGone, rest⟩ := bind_eq_ok rest
      obtain ⟨adm, erasure, done⟩ := bind_eq_ok rest
      obtain ⟨absent, others, noDir⟩ := removeFileIfPresent_spec isGone
      obtain ⟨file, rfl, noEntry, times⟩ := removeFromEntries_spec erasure
      cases done
      have props : removePropFiles ⟨({ dir.adm with entries := file } : Adm).withoutTextBase name, inner⟩ name =
          ⟨(({ dir.adm with entries := file } : Adm).withoutTextBase name).withoutProps name, inner⟩ := by
        rw [removePropFiles, absent]
      rw [props]
      refine ⟨⟨others, ?_, ?_, times⟩, checked, nofun, fun _ => absent, fun _ => noDir, fun _ => noEntry,
        fun _ => ?_⟩
      · exact fun other differs => Function.update_of_ne differs _ _
      · exact fun other differs => Function.update_of_ne differs _ _
      · exact ⟨Function.update_self .., Function.update_self .., Function.update_self ..,
          Function.update_self ..⟩

theorem fileStanding_ne_directory (path : List Bytes) :
    fileStanding translator format dir name path ≠ .directory := by
  cases path with
  | nil =>
      rw [fileStanding]
      split
      · split <;> nofun
      · nofun
  | cons _ _ => nofun

theorem FileRemoved.swept (removed : FileRemoved translator format dir name removal) :
    Swept (fileStanding translator format dir name) (dir.inner.lookup name)
      (removal.dir.inner.lookup name) where
  files := fun path => by
    have modified : dir.modified translator format name = removal.left := by
      rw [WcDir.modified, removed.checked]
    cases isLeft : removal.left with
    | true =>
        have notPlain : fileStanding translator format dir name path ≠ .plainFile := by
          cases path with
          | nil =>
              rw [fileStanding, modified, isLeft, if_pos rfl]
              split <;> nofun
          | cons _ _ => nofun
        rw [removed.kept isLeft, if_neg notPlain]
    | false =>
        rw [removed.gone isLeft]
        cases present : dir.inner.lookup name with
        | none => exact (ite_self none).symm
        | some node =>
            cases node with
            | dir adm inner => exact absurd present (removed.noDir isLeft adm inner)
            | file file =>
                cases path with
                | nil =>
                    have isPlain : fileStanding translator format dir name [] = .plainFile := by
                      rw [fileStanding, modified, isLeft, WcDir.working, present]
                      rfl
                    rw [isPlain, if_pos rfl]
                    rfl
                | cons _ _ => rfl
  areas := fun path isDirectory => absurd isDirectory (fileStanding_ne_directory path)

end Files

/-- What the removal of a directory does. -/
structure DirRemoved (translator : Translator) (format : TimeFormat) (dir : WcDir) (name : Bytes)
    (removal : Removal) : Prop where
  untouched : Untouched format (· = name) dir removal.dir
  swept : ∃ below, dir.below name = some below ∧ Swept (fun path => standing translator format path below)
    (dir.inner.lookup name) (removal.dir.inner.lookup name)
  noEntry : ¬ HasEntry removal.dir.adm.entries name
  left : removal.left = true ↔ removal.dir.inner.lookup name ≠ none

/-- The state of the loop, with the entries that are still to come. -/
structure Looping (translator : Translator) (format : TimeFormat) (before : WcDir)
    (rest : List (Sigma fun _ : Bytes => Entry)) (done : Removal) : Prop where
  nodup : rest.NodupKeys
  listed : ∀ entry ∈ rest, entry.1 ≠ thisDirName → before.kindOf format entry.1 = some entry.2.kind
  untouched : Untouched format (· ∉ rest.keys) before done.dir
  swept : ∀ name, name ∉ rest.keys → Swept (fun path => standing translator format (name :: path) before)
    (before.inner.lookup name) (done.dir.inner.lookup name)

section Loop

variable {translator : Translator} {format : TimeFormat} {path : Bytes} {before : WcDir} {done next : Removal}
  {entry : Sigma fun _ : Bytes => Entry} {rest : List (Sigma fun _ : Bytes => Entry)}

theorem Looping.step (looping : Looping translator format before (entry :: rest) done)
    (untouched : Untouched format (· = entry.1) done.dir next.dir)
    (swept : Swept (fun path => standing translator format (entry.1 :: path) before)
      (before.inner.lookup entry.1) (next.dir.inner.lookup entry.1)) :
    Looping translator format before rest next := by
  obtain ⟨fresh, nodup⟩ := List.nodupKeys_cons.mp looping.nodup
  refine ⟨nodup, fun other member => looping.listed other (List.mem_cons_of_mem _ member), ?_, ?_⟩
  · refine (looping.untouched.trans untouched).mono fun name touched => ?_
    rcases touched with absent | same
    · exact fun later => absent (List.mem_cons_of_mem _ later)
    · rw [same]
      exact fresh
  · intro name absent
    by_cases same : name = entry.1
    · rw [same]
      exact swept
    · rw [untouched.inner name same]
      exact looping.swept name fun member => (List.mem_cons.mp member).elim same absent

theorem Looping.lookup (looping : Looping translator format before (entry :: rest) done) :
    done.dir.inner.lookup entry.1 = before.inner.lookup entry.1 :=
  looping.untouched.inner entry.1 fun absent => absent List.mem_cons_self

/-- One round of the loop. -/
theorem removeEntry_looping {remove : Bytes → WcDir → Bytes → Bool → Except SvnError Removal}
    (removes : ∀ path dir name removal, remove path dir name true = .ok removal →
      DirRemoved translator format dir name removal)
    (looping : Looping translator format before (entry :: rest) done)
    (round : removeEntry translator format remove path true done entry = .ok next) :
    Looping translator format before rest next := by
  have free : ¬ entry.1 ∉ List.keys (entry :: rest) := fun absent => absent List.mem_cons_self
  have listed := looping.listed entry List.mem_cons_self
  rw [removeEntry] at round
  split at round
  case isTrue isFile =>
    split at round
    case isTrue => cases round
    case isFalse named =>
      obtain ⟨removed, removal, ends⟩ := bind_eq_ok round
      cases ends
      have spec := removeFile_spec removal
      refine looping.step spec.untouched ?_
      have working := looping.untouched.working free
      have checked := looping.untouched.textModifiedP free spec.checked
      have modified :
          done.dir.modified translator format entry.1 = before.modified translator format entry.1 := by
        rw [WcDir.modified, WcDir.modified, spec.checked, checked]
      have swept := spec.swept
      rw [looping.lookup] at swept
      have same : (fun path => standing translator format (entry.1 :: path) before) =
          fileStanding translator format done.dir entry.1 := by
        funext path
        rw [standing_file ((listed named).trans (congrArg some isFile))]
        cases path with
        | nil => rw [fileStanding, fileStanding, working, modified]
        | cons _ _ => rfl
      rw [same]
      exact swept
  case isFalse noFile =>
    split at round
    case isTrue isDir =>
      obtain ⟨removed, removal, ends⟩ := bind_eq_ok round
      cases ends
      have spec := removes _ _ _ _ removal
      obtain ⟨below, isBelow, swept⟩ := spec.swept
      refine looping.step spec.untouched ?_
      rw [WcDir.below, looping.lookup, ← WcDir.below] at isBelow
      rw [looping.lookup] at swept
      have same : (fun path => standing translator format (entry.1 :: path) before) =
          fun path => standing translator format path below :=
        funext (standing_below ((listed isDir.1).trans (congrArg some isDir.2)) isBelow)
      rw [same]
      exact swept
    case isFalse noDir =>
      cases round
      refine looping.step (.refl done.dir) ?_
      rw [looping.lookup]
      exact .unversioned _ (standing_passed listed noFile noDir)

theorem lookup_of_mem {entries : EntriesHash} (member : entry ∈ entries.entries) :
    entries.lookup entry.1 = some entry.2 :=
  AList.mem_lookup_iff.mpr member

/-- The entries of the loop are those of the directory. -/
theorem order_listed {order : EntriesOrder} {entries : EntriesHash}
    (read : entriesRead format before.adm.entries = .ok entries) :
    (order.list entries).NodupKeys ∧
      (∀ entry ∈ order.list entries, entry.1 ≠ thisDirName → before.kindOf format entry.1 = some entry.2.kind) ∧
      ∀ name, name ∉ (order.list entries).keys → before.kindOf format name = none := by
  have perm := order.perm entries
  refine ⟨(List.perm_nodupKeys perm).mpr entries.nodupKeys, ?_, ?_⟩
  · intro entry member named
    rw [WcDir.kindOf, if_neg named, read]
    exact congrArg (Option.map (·.kind)) (lookup_of_mem (perm.mem_iff.mp member))
  · intro name absent
    have noEntry : entries.lookup name = none := by
      rw [AList.lookup_eq_none, AList.mem_keys]
      exact fun member => absent ((perm.map Sigma.fst).mem_iff.mpr member)
    rw [WcDir.kindOf, read]
    split
    · rfl
    · exact congrArg (Option.map (·.kind)) noEntry

/-- Before the loop no entry is done, and whatever is no entry is not under revision control. -/
theorem looping_start {order : EntriesOrder} {entries : EntriesHash}
    (read : entriesRead format before.adm.entries = .ok entries) :
    Looping translator format before (order.list entries) ⟨before, false⟩ := by
  obtain ⟨nodup, listed, unlisted⟩ := @order_listed _ _ order _ read
  refine ⟨nodup, listed, .refl before, fun name absent => .unversioned _ ?_⟩
  have noKind := unlisted name absent
  exact standing_unversioned (by rw [noKind]; nofun) (by rw [noKind]; nofun)

end Loop

section Directories

variable {translator : Translator} {format : TimeFormat} {order : EntriesOrder}

theorem destroyDir_spec {path name : Bytes} {dir below : WcDir} {after removal : Removal}
    (isBelow : dir.inner.lookup name = some (.dir (some below.adm) below.inner))
    (looping : Looping translator format below [] after)
    (destroyed : destroyDir path dir name true after = .ok removal) :
    removal.dir.adm = dir.adm ∧
      (∀ other, other ≠ name → removal.dir.inner.lookup other = dir.inner.lookup other) ∧
      Swept (fun path => standing translator format path below) (dir.inner.lookup name)
        (removal.dir.inner.lookup name) ∧
      (removal.left = true ↔ removal.dir.inner.lookup name ≠ none) := by
  have swept : Swept (fun path => standing translator format path below)
      (some (.dir (some below.adm) below.inner)) (some (.dir none after.dir.inner)) :=
    .dir fun name => looping.swept name List.not_mem_nil
  rw [isBelow]
  rw [destroyDir] at destroyed
  split at destroyed
  case isTrue => cases destroyed
  case isFalse =>
    split at destroyed
    case isTrue empty =>
      cases destroyed
      have nothing : after.dir.inner = [] := List.isEmpty_iff.mp empty.2.2
      have gone : (erased dir.inner name).lookup name = none := by rw [lookup_erased, if_pos rfl]
      rw [nothing] at swept
      rw [gone]
      exact ⟨rfl, fun other differs => by rw [lookup_erased, if_neg differs], swept.gone, nofun,
        fun something => absurd rfl something⟩
    case isFalse =>
      cases destroyed
      have stays : (placed dir.inner name (.dir none after.dir.inner)).lookup name =
          some (.dir none after.dir.inner) := by rw [lookup_placed, if_pos rfl]
      rw [stays, Bool.or_true]
      exact ⟨rfl, fun other differs => by rw [lookup_placed, if_neg differs], swept, fun _ => nofun,
        fun _ => rfl⟩

theorem removeDir_spec (fuel : Nat) : ∀ path dir name removal,
    removeDir translator format order fuel path dir name true = .ok removal →
      DirRemoved translator format dir name removal := by
  induction fuel with
  | zero => exact fun _ _ _ _ removed => nomatch removed
  | succ fuel ih =>
      intro path dir name removal removed
      rw [removeDir] at removed
      obtain ⟨adm, erasure, rest⟩ := bind_eq_ok removed
      obtain ⟨file, rfl, noEntry, times⟩ := removeFromEntries_spec erasure
      split at rest
      case h_1 own inner isBelow =>
        obtain ⟨entries, read, rest⟩ := bind_eq_ok rest
        obtain ⟨after, looped, destroyed⟩ := bind_eq_ok rest
        have looping := GuardedRuns.foldlM_ends (Looping translator format ⟨own, inner⟩)
          (fun entry rest done next => removeEntry_looping ih) _ (looping_start read) looped
        obtain ⟨sameAdm, others, swept, left⟩ := destroyDir_spec isBelow looping destroyed
        refine ⟨⟨others, ?_, ?_, ?_⟩, ⟨⟨own, inner⟩, by rw [WcDir.below, isBelow], swept⟩, ?_, left⟩
        · exact fun other _ => by rw [sameAdm]
        · exact fun other _ => by rw [sameAdm]
        · rw [sameAdm]
          exact times
        · rw [sameAdm]
          exact noEntry
      case h_2 => cases rest

end Directories

/-- The item is a file with local modifications. -/
def ModifiedFile (translator : Translator) (format : TimeFormat) (dir : WcDir) (item : Item) : Prop :=
  ∃ name, item = .file name ∧ textModifiedP translator format name (dir.area name) = .ok true

/-- What is asked of the removal of an item. -/
structure Removes (translator : Translator) (format : TimeFormat) (dir : WcDir) (item : Item)
    (removal : Removal) : Prop where
  noEntry : ¬ HasEntry removal.dir.adm.entries item.name
  bare : ∀ name, item = .file name → removal.dir.adm.Bare name
  swept : Swept (itemStanding translator format dir item) (dir.inner.lookup item.name)
    (removal.dir.inner.lookup item.name)
  left : removal.left = true ↔ removal.dir.inner.lookup item.name ≠ none

/-- The update finds no entry, or it finds one that can be removed. -/
inductive Deletes (translator : Translator) (format : TimeFormat) (path : Bytes) (dir : WcDir)
    (name : Bytes) : Prop where
  | absent (noEntry : ¬ HasEntry dir.adm.entries name)
  | dir (entry : Entry) (found : svnWcEntry format path dir name = .ok (some entry)) (kind : entry.kind = .dir)
  | file (entry : Entry) (found : svnWcEntry format path dir name = .ok (some entry))
      (kind : entry.kind = .file) (plain : ¬ ModifiedFile translator format dir (.file name))

section Outcome

variable {translator : Translator} {format : TimeFormat} {order : EntriesOrder} {dir : WcDir}

theorem hasEntry_of_modified {name : Bytes}
    (modified : textModifiedP translator format name (dir.area name) = .ok true) :
    HasEntry dir.adm.entries name := by
  rw [textModifiedP.eq_def] at modified
  split at modified
  case h_1 => cases modified
  case h_2 working present =>
    obtain ⟨equal, compared, _⟩ := bind_eq_ok modified
    obtain ⟨entries, read, time, hasTime, _⟩ := timestampsEqualP_eq_ok_iff.mp compared
    obtain ⟨entry, found, _⟩ := Option.map_eq_some_iff.mp hasTime
    exact hasEntry_of_lookup read found

theorem FileRemoved.left_iff {name : Bytes} {removal : Removal}
    (removed : FileRemoved translator format dir name removal) :
    removal.left = true ↔ ModifiedFile translator format dir (.file name) := by
  constructor
  · intro isLeft
    exact ⟨name, rfl, isLeft ▸ removed.checked⟩
  · rintro ⟨_, same, modified⟩
    cases same
    exact Except.ok.inj (removed.checked.symm.trans modified)

/-- A modified file keeps its entry, since the check returns before anything is removed. -/
theorem FileRemoved.noEntry_iff {name : Bytes} {removal : Removal}
    (removed : FileRemoved translator format dir name removal) :
    ¬ HasEntry removal.dir.adm.entries name ↔ ¬ ModifiedFile translator format dir (.file name) := by
  constructor
  · rintro noEntry ⟨_, same, modified⟩
    cases same
    rw [removed.kept (removed.left_iff.mpr ⟨name, rfl, modified⟩)] at noEntry
    exact noEntry (hasEntry_of_modified modified)
  · intro plain
    exact removed.noEntry (Bool.eq_false_iff.mpr fun isLeft => plain (removed.left_iff.mp isLeft))

theorem FileRemoved.removes_iff {name : Bytes} {removal : Removal}
    (removed : FileRemoved translator format dir name removal) :
    Removes translator format dir (.file name) removal ↔ ¬ ModifiedFile translator format dir (.file name) := by
  constructor
  · exact fun removes => removed.noEntry_iff.mp removes.noEntry
  · intro plain
    have notLeft : removal.left = false :=
      Bool.eq_false_iff.mpr fun isLeft => plain (removed.left_iff.mp isLeft)
    refine ⟨removed.noEntry notLeft, ?_, removed.swept, ?_⟩
    · rintro _ same
      cases same
      exact removed.bare notLeft
    · change removal.left = true ↔ removal.dir.inner.lookup name ≠ none
      rw [notLeft, removed.gone notLeft]
      exact ⟨nofun, fun something => absurd rfl something⟩

theorem DirRemoved.removes {name : Bytes} {removal : Removal}
    (removed : DirRemoved translator format dir name removal) :
    Removes translator format dir (.thisDir name) removal := by
  obtain ⟨below, isBelow, swept⟩ := removed.swept
  refine ⟨removed.noEntry, nofun, ?_, removed.left⟩
  have same : itemStanding translator format dir (.thisDir name) =
      fun path => standing translator format path below := by
    funext path
    rw [itemStanding, isBelow]
    rfl
  rw [same]
  exact swept

theorem deletes_iff_absent {path name : Bytes}
    (noItem : ∀ entry, svnWcEntry format path dir name = .ok (some entry) →
      entry.kind ≠ .dir ∧ entry.kind ≠ .file) :
    ¬ HasEntry dir.adm.entries name ↔ Deletes translator format path dir name := by
  constructor
  · exact .absent
  · intro deletes
    cases deletes with
    | absent noEntry => exact noEntry
    | dir entry found kind => exact absurd kind (noItem entry found).1
    | file entry found kind plain => exact absurd kind (noItem entry found).2

theorem logDoDeleteEntry_iff {fuel : Nat} {path name : Bytes} {after : WcDir}
    (done : logDoDeleteEntry translator format order fuel path dir name = .ok after) :
    ¬ HasEntry after.adm.entries name ↔ Deletes translator format path dir name := by
  rw [logDoDeleteEntry] at done
  split at done
  case h_1 error failed =>
    split at done
    case isTrue => cases done
    case isFalse =>
      cases done
      exact deletes_iff_absent fun entry found => by rw [failed] at found; cases found
  case h_2 nothing =>
    cases done
    exact deletes_iff_absent fun entry found => by rw [nothing] at found; cases found
  case h_3 entry found =>
    split at done
    case isTrue isDir =>
      obtain ⟨removal, removed, ends⟩ := bind_eq_ok done
      cases ends
      exact ⟨fun _ => .dir entry found isDir, fun _ => (removeDir_spec fuel _ _ _ _ removed).noEntry⟩
    case isFalse noDir =>
      split at done
      case isTrue isFile =>
        obtain ⟨removal, removed, ends⟩ := bind_eq_ok done
        cases ends
        rw [(removeFile_spec removed).noEntry_iff]
        constructor
        · exact .file entry found isFile
        · intro deletes
          cases deletes with
          | absent noEntry =>
              rintro ⟨_, same, modified⟩
              cases same
              exact noEntry (hasEntry_of_modified modified)
          | dir other otherFound kind =>
              rw [found] at otherFound
              cases otherFound
              exact absurd kind noDir
          | file _ _ _ plain => exact plain
      case isFalse noFile =>
        cases done
        refine deletes_iff_absent fun other otherFound => ?_
        rw [found] at otherFound
        cases otherFound
        exact ⟨noDir, noFile⟩

/-- For every directory, every tree below it, and every order of the entries. -/
theorem removals_iff (translator : Translator) (format : TimeFormat) (order : EntriesOrder) (fuel : Nat)
    (path : Bytes) (dir : WcDir) :
    (∀ item removal,
      svnWcRemoveFromRevisionControl translator format order fuel path dir item true = .ok removal →
      (Removes translator format dir item removal ↔ ¬ ModifiedFile translator format dir item)) ∧
    ∀ name after, logDoDeleteEntry translator format order fuel path dir name = .ok after →
      (¬ HasEntry after.adm.entries name ↔ Deletes translator format path dir name) := by
  constructor
  · intro item removal removed
    cases item with
    | file name => exact (removeFile_spec removed).removes_iff
    | thisDir name =>
        have removes := (removeDir_spec fuel path dir name removal removed).removes
        exact ⟨fun _ => nofun, fun _ => removes⟩
  · exact fun name after done => logDoDeleteEntry_iff done

/-- The entries in the order of the hash. -/
def hashOrder : EntriesOrder where
  list := fun entries => entries.entries
  perm := fun _ => .refl _

def emptyAdm (entries : List Atts) : Adm where
  entries := entries
  textBase := fun name => if name = [102] then some [97] else none
  props := fun _ => none
  propBase := fun _ => none
  wcprops := fun _ => none
  dirProps := none
  dirPropBase := none
  dirWcprops := none
  locked := false

def plainAdm : Adm := emptyAdm [directoryAtts, fileAtts]

/-- A directory `d` with the file `f`, which is as it was, and the file `g`, which is not versioned. -/
def treeDir : WcDir :=
  ⟨emptyAdm [directoryAtts, { noAtts with name := some [100], kind := some dirStr }],
    [([100], .dir (some plainAdm) [([102], .file ⟨[97], 0⟩), ([103], .file ⟨[98], 0⟩)])]⟩

theorem removals_iff_tree :
    ∃ removal, svnWcRemoveFromRevisionControl plainTranslator decimalTime hashOrder 2 [] treeDir
        (.thisDir [100]) true = .ok removal ∧
      Removes plainTranslator decimalTime treeDir (.thisDir [100]) removal := by
  refine ⟨_, rfl, ?_⟩
  refine ((removals_iff plainTranslator decimalTime hashOrder 2 [] treeDir).1 _ _ rfl).mpr ?_
  rintro ⟨_, same, _⟩
  cases same

/-- The file `f` is modified. -/
def modifiedDir : WcDir := ⟨plainAdm, [([102], .file ⟨[98], 0⟩)]⟩

theorem modified_file_stays_versioned :
    (∃ removal, svnWcRemoveFromRevisionControl plainTranslator decimalTime hashOrder 0 [] modifiedDir
        (.file [102]) true = .ok removal ∧
      removal.left = true ∧ ¬ Removes plainTranslator decimalTime modifiedDir (.file [102]) removal) ∧
    ∃ after, logDoDeleteEntry plainTranslator decimalTime hashOrder 0 [] modifiedDir [102] = .ok after ∧
      HasEntry after.adm.entries [102] := by
  have listed : HasEntry plainAdm.entries [102] := ⟨fileAtts, List.mem_cons_of_mem _ List.mem_cons_self, rfl⟩
  exact ⟨⟨⟨modifiedDir, true⟩, rfl, rfl, fun removes => removes.noEntry listed⟩, ⟨modifiedDir, rfl, listed⟩⟩

end Outcome

end Subversion.Wc
