/-
This file shows when the local changes of a working copy are taken back.
-/

import Subversion.Wc.RevertedTrees

namespace Subversion.Wc

open Delta Subr Lib

/-- What the reversion of an item gives. -/
structure ItemReverted (translator : Translator) (format : TimeFormat) (fuel : Nat) (path : Bytes)
    (before after : WcDir) (name : Bytes) : Prop where
  kept : Kept format (fun other => other = name ∨ before.Mentions format name other) before after
  gone : ∀ other, other ≠ name → before.inner.lookup other = none → after.inner.lookup other = none
  reverted : Reverted translator format whatIsLeft path before after name
  again : after.row format name ≠ none → Stable translator format fuel path after name

/-- The four ways through the code. -/
inductive RevertCase (translator : Translator) (format : TimeFormat) (order : EntriesOrder) (clock : Clock)
    (fuel : Nat) (path : Bytes) (dir : WcDir) (name : Bytes) (entry : Entry) (root : Bool) (after : WcDir) :
    Prop where
  | addedDir (removal : Removal) (isAdded : entry.schedule = .add) (isDir : entry.kind = .dir)
      (removed : removeDir translator format order fuel path dir name false = .ok removal)
      (ends : after = removal.dir)
  | addedFile (removal : Removal) (isAdded : entry.schedule = .add) (isFile : entry.kind = .file)
      (removed : removeFile translator format path dir name false = .ok removal) (ends : after = removal.dir)
  | dir (notAdded : entry.schedule ≠ .add) (isDir : entry.kind = .dir)
      (reverted : revertDir format order clock (svnWcRevert translator format order clock fuel) path dir name root
        entry = .ok after)
  | file (notAdded : entry.schedule ≠ .add) (isFile : entry.kind = .file) (notRoot : root = false)
      (reverted : revertFile translator format clock path dir name entry = .ok after)

section Items

variable {translator : Translator} {format : TimeFormat} {order : EntriesOrder} {clock : Clock}
  {fuel : Nat} {path name : Bytes} {dir own after : WcDir} {row : Row} {entry : Entry} {removal : Removal}
  {root : Bool}

theorem svnWcRevert_cases
    (reverted : svnWcRevert translator format order clock (fuel + 1) path dir name = .ok after) :
    ∃ entry root, svnWcEntry format path dir name = .ok (some entry) ∧
      svnWcIsWcRoot format dir name entry = .ok root ∧
      RevertCase translator format order clock fuel path dir name entry root after := by
  rw [svnWcRevert] at reverted
  obtain ⟨found, isEntry, rest⟩ := bind_eq_ok reverted
  cases found with
  | none => cases rest
  | some entry =>
      dsimp only at rest
      split at rest
      case isTrue => cases rest
      case isFalse known =>
        have isFile : entry.kind ≠ .dir → entry.kind = .file := fun noDir =>
          not_not.mp fun noFile => known ⟨noFile, noDir⟩
        obtain ⟨root, isRoot, rest⟩ := bind_eq_ok rest
        refine ⟨entry, root, isEntry, isRoot, ?_⟩
        split at rest
        case isTrue isAdded =>
          split at rest
          case isTrue isDir =>
            obtain ⟨removal, removed, ends⟩ := bind_eq_ok rest
            exact .addedDir removal isAdded isDir removed (Except.ok.inj ends).symm
          case isFalse noDir =>
            split at rest
            case isTrue => cases rest
            case isFalse =>
              obtain ⟨removal, removed, ends⟩ := bind_eq_ok rest
              exact .addedFile removal isAdded (isFile noDir) removed (Except.ok.inj ends).symm
        case isFalse notAdded =>
          split at rest
          case isTrue isDir => exact .dir notAdded isDir rest
          case isFalse noDir =>
            split at rest
            case isTrue => cases rest
            case isFalse notRoot =>
              exact .file notAdded (isFile noDir) (Bool.eq_false_iff.mpr notRoot) rest

/-- A directory says itself what it is. -/
theorem entry_of_below (ok : ItemOk format dir name) (isRow : dir.row format name = some row)
    (isBelow : dir.below name = some own) (isEntry : svnWcEntry format path dir name = .ok (some entry)) :
    (own.listed format).lookup thisDirName = some entry ∧ entry.row.kind = .dir := by
  obtain ⟨-, ownRow, isOwn, kind⟩ := ok.own row own isRow isBelow
  rw [svnWcEntry_below isBelow] at isEntry
  obtain ⟨entries, read, ends⟩ := bind_eq_ok isEntry
  have found : (own.listed format).lookup thisDirName = some entry := by
    rw [listed_of_read read]
    exact Except.ok.inj ends
  rw [WcDir.row, rowIn, found] at isOwn
  cases isOwn
  exact ⟨found, kind⟩

/-- What is not a directory has its only entry in the directory. -/
theorem entry_of_noBelow (noBelow : dir.below name = none) (isRow : dir.row format name = some row)
    (isEntry : svnWcEntry format path dir name = .ok (some entry)) :
    (dir.listed format).lookup name = some entry ∧ entry.row = row := by
  rw [svnWcEntry_noDir (noDir_of_svnWcEntry noBelow isEntry)] at isEntry
  obtain ⟨entries, read, ends⟩ := bind_eq_ok isEntry
  have found : (dir.listed format).lookup name = some entry := by
    rw [listed_of_read read]
    exact Except.ok.inj ends
  rw [WcDir.row, rowIn, found] at isRow
  exact ⟨found, Option.some.inj isRow⟩

/-- A file has no directory in its place. -/
theorem noBelow_of_file (ok : ItemOk format dir name) (isRow : dir.row format name = some row)
    (isEntry : svnWcEntry format path dir name = .ok (some entry)) (isFile : entry.kind = .file) :
    dir.below name = none := by
  cases isBelow : dir.below name with
  | none => rfl
  | some own =>
      obtain ⟨-, kind⟩ := entry_of_below ok isRow isBelow isEntry
      rw [Entry.row, isFile] at kind
      cases kind

/-- An item that was added is released. -/
theorem added_spec {itemRow : Row} (isRow : dir.row format name = some row)
    (isItem : dir.itemRow format name = some itemRow) (isAdded : itemRow.schedule = .add)
    (kept : Kept format (· = name) dir after)
    (noRow : after.row format name = none) (noBelow : after.below name = none)
    (released : Released (itemStanding translator format dir (.thisDir name)) (dir.inner.lookup name)
      (after.inner.lookup name)) : ItemReverted translator format fuel path dir after name := by
  refine ⟨kept.mono fun _ => .inl, ?_, .released isRow isItem isAdded trivial noRow noBelow released,
    fun isListed => absurd noRow isListed⟩
  intro other differs absent
  rw [(kept.items other differs).inner, absent]

theorem addedDir_spec (sound : dir.Sound format) (ok : ItemOk format dir name)
    (isRow : dir.row format name = some row) (isEntry : svnWcEntry format path dir name = .ok (some entry))
    (isAdded : entry.schedule = .add)
    (removed : removeDir translator format order fuel path dir name false = .ok removal) :
    ItemReverted translator format (fuel + 1) path dir removal.dir name := by
  obtain ⟨kept, noRow⟩ := removeDir_kept sound removed
  obtain ⟨own, isBelow, released⟩ := (removeDir_released fuel path dir name removal removed).released
  obtain ⟨found, -⟩ := entry_of_below ok isRow isBelow isEntry
  have isItem : dir.itemRow format name = some entry.row := by
    rw [itemRow_below isBelow, WcDir.row, rowIn, found]
    rfl
  refine added_spec isRow isItem isAdded kept noRow ?_ ?_
  · cases stays : removal.dir.below name with
    | none => rfl
    | some below =>
        have noArea := released.areas [] rfl
        rw [lookup_of_below stays] at noArea
        cases noArea
  have standing : itemStanding translator format dir (.thisDir name) =
      fun path => standing translator format path own := by
    funext path
    rw [itemStanding, isBelow]
    rfl
  rw [standing]
  exact released

theorem addedFile_spec (sound : dir.Sound format) (ok : ItemOk format dir name)
    (isRow : dir.row format name = some row) (isEntry : svnWcEntry format path dir name = .ok (some entry))
    (isAdded : entry.schedule = .add) (isFile : entry.kind = .file)
    (removed : removeFile translator format path dir name false = .ok removal) :
    ItemReverted translator format fuel path dir removal.dir name := by
  have noBelow := noBelow_of_file ok isRow isEntry isFile
  obtain ⟨-, rfl⟩ := entry_of_noBelow noBelow isRow isEntry
  obtain ⟨kept, noRow, sameInner⟩ := removeFile_kept sound noBelow removed
  obtain ⟨-, released⟩ := removeFile_released removed
  have noBelowAfter : removal.dir.below name = none := by rw [WcDir.below, sameInner, ← WcDir.below, noBelow]
  refine added_spec isRow ((itemRow_noBelow noBelow).trans isRow) isAdded kept noRow noBelowAfter
    ⟨released.files, fun path isDirectory => ?_⟩
  rw [itemStanding, noBelow] at isDirectory
  cases isDirectory

theorem RowReverted.leftBy {now : Row} (reverted : RowReverted row now) : LeftBy False row now :=
  ⟨⟨reverted.copied, reverted.copyfromUrl, reverted.copyfromRev⟩, fun _ => reverted.schedule, False.elim⟩

theorem file_spec (sound : dir.Sound format) (named : name ≠ thisDirName) (ok : ItemOk format dir name)
    (isRow : dir.row format name = some row) (isEntry : svnWcEntry format path dir name = .ok (some entry))
    (notAdded : entry.schedule ≠ .add) (isFile : entry.kind = .file)
    (notRoot : svnWcIsWcRoot format dir name entry = .ok false)
    (reverted : revertFile translator format clock path dir name entry = .ok after) :
    ItemReverted translator format (fuel + 1) path dir after name := by
  have noBelow := noBelow_of_file ok isRow isEntry isFile
  obtain ⟨found, rfl⟩ := entry_of_noBelow noBelow isRow isEntry
  have apart : ¬ entry.row.Mentions name := by
    intro mentioned
    exact nomatch (ok.apart name ⟨_, isRow, mentioned⟩).symm.trans isRow
  have spec := revertFile_spec sound found notAdded (noDir_of_svnWcEntry noBelow isEntry) apart reverted
  obtain ⟨now, isNow, rowReverted, settled⟩ := spec.isRow
  have stable : FileStable translator format path after name now :=
    ⟨rowReverted.schedule, rowReverted.noConflict, spec.working, spec.text, settled⟩
  refine ⟨spec.kept.mono ?_, ?_, .file isRow notAdded noBelow isNow rowReverted.leftBy stable spec.textBase
    spec.propBase spec.conflicts, fun _ => ?_⟩
  · rintro other (same | mentioned)
    · exact .inl same
    · exact .inr ⟨_, isRow, mentioned⟩
  · intro other differs absent
    by_cases mentioned : entry.row.Mentions other
    · exact spec.conflicts other mentioned
    · rw [(spec.kept.items other fun touched => touched.elim differs mentioned).inner, absent]
  · have fits : dir.Fits format name := by
      intro other isOther
      obtain rfl : entry = other := Option.some.inj (found.symm.trans isOther)
      obtain ⟨root, isRoot, root_iff⟩ := svnWcIsWcRoot_ok sound name entry
      exact root_iff.mp (Except.ok.inj (isRoot.symm.trans notRoot))
    have noBelowAfter : after.below name = none := below_eq_none stable.noDir
    have kindNow : now.kind = .file := by
      rw [rowReverted.kind, Entry.row, isFile]
      rfl
    rw [Stable, noBelowAfter]
    exact ⟨spec.kept.fits name named fits, now, isNow, kindNow, stable⟩

end Items

/-- A row whose conflict fields are all empty mentions no file. -/
theorem bare_of_fields {row : Row} (noOld : row.conflictOld = none) (noNew : row.conflictNew = none)
    (noWrk : row.conflictWrk = none) (noPrej : row.prejfile = none) (file : Bytes) : ¬ row.Mentions file := by
  rintro (mentioned | mentioned | mentioned | mentioned)
  · exact nomatch noOld.symm.trans mentioned
  · exact nomatch noNew.symm.trans mentioned
  · exact nomatch noWrk.symm.trans mentioned
  · exact nomatch noPrej.symm.trans mentioned

section Rows

variable {format : TimeFormat} {path name : Bytes} {dir own : WcDir} {row : Row} {entry changed : Entry}
  {root propsChanged : Bool} {file : List Atts}

theorem resetEntries_parts {reset : Reset} {entries : List Atts} {files : List Atts × List Atts}
    (updated : resetEntries format path dir name root entries changed reset = .ok files) :
    (if reset.any then
      (if root then .ok dir.adm.entries
        else entryModify format path dir.adm.entries (some name) (revertedEntry changed) reset.flags)
      else .ok dir.adm.entries) = .ok files.1 ∧
    (if reset.any then
      entryModify format (addComponent path name) entries none (revertedEntry changed) ownReset.flags
      else .ok entries) = .ok files.2 := by
  rw [resetEntries] at updated
  split at updated
  case isTrue any =>
    obtain ⟨parent, modified, rest⟩ := bind_eq_ok updated
    obtain ⟨own, ownModified, ends⟩ := bind_eq_ok rest
    cases ends
    rw [if_pos any, if_pos any]
    exact ⟨modified, ownModified⟩
  case isFalse nothing =>
    cases updated
    rw [if_neg nothing, if_neg nothing]
    exact ⟨rfl, rfl⟩

/-- The directory's own entry, of which the time of the properties stays. -/
theorem ownReset_spec (ok : OwnOk format own) (found : (own.listed format).lookup thisDirName = some entry)
    (notAdded : entry.schedule ≠ .add)
    (updated : (if (resetOf entry propsChanged false).any then
      entryModify format path own.adm.entries none (revertedEntry changed) ownReset.flags
      else .ok own.adm.entries) = .ok file) :
    ∃ back now, Readable format file back ∧ OthersKept thisDirName (own.listed format) back ∧
      rowIn back thisDirName = some now ∧ RowReverted entry.row now ∧ now.propTime = entry.propTime := by
  obtain ⟨-, noOld, noNew, noWrk⟩ := ok.row entry.row (by rw [WcDir.row, rowIn, found]; rfl)
  cases any : (resetOf entry propsChanged false).any with
  | true =>
      rw [any, if_pos rfl] at updated
      obtain ⟨back, readable, othersKept, isNow⟩ :=
        @entryModify_rows _ _ _ _ _ none _ _ ownReset ok.sound found updated
      exact ⟨back, _, readable, othersKept, isNow,
        ⟨rfl, rfl, rfl, rfl, rfl, bare_of_fields noOld noNew noWrk rfl⟩, rfl⟩
  | false =>
      rw [any] at updated
      cases updated
      have reverted := resetOf_reverted notAdded propsChanged false entry
      rw [Reset.apply_nothing any] at reverted
      exact ⟨own.listed format, entry.row, ok.sound, ⟨fun _ _ => rfl, rfl, fun _ _ fits => fits⟩,
        by rw [rowIn, found]; rfl, reverted, rfl⟩

/-- The entry in the parent, which stays as it was if the directory is a root. -/
theorem parentReset_spec (sound : dir.Sound format) (isRow : dir.row format name = some row)
    (bare : ∀ file, ¬ row.Mentions file) (notAdded : entry.schedule ≠ .add)
    (updated : (if (resetOf entry propsChanged false).any then
      (if root then .ok dir.adm.entries
        else entryModify format path dir.adm.entries (some name) (revertedEntry changed)
          (resetOf entry propsChanged false).flags)
      else .ok dir.adm.entries) = .ok file) :
    ∃ back now, Readable format file back ∧ OthersKept name (dir.listed format) back ∧
      rowIn back name = some now ∧ LeftBy (root = true ∨ entry.schedule = .normal) row now ∧
      ∀ file, ¬ now.Mentions file := by
  obtain ⟨parent, found, rfl⟩ := entry_of_row isRow
  cases root with
  | true =>
      rw [if_pos rfl, ite_self] at updated
      cases updated
      exact ⟨dir.listed format, parent.row, sound, ⟨fun _ _ => rfl, rfl, fun _ _ fits => fits⟩, isRow,
        ⟨⟨rfl, rfl, rfl⟩, fun notRoot => absurd (.inl rfl) notRoot, fun _ => rfl⟩, bare⟩
  | false =>
      obtain ⟨back, readable, othersKept, isNow⟩ := resetEntry_spec sound found updated
      obtain ⟨noOld, noNew, noWrk, noPrej⟩ := noConflict_fields bare
      refine ⟨back, _, readable, othersKept, isNow, ⟨⟨rfl, rfl, rfl⟩, ?_, ?_⟩, bare_of_fields ?_ ?_ ?_ ?_⟩
      · intro changes
        rw [not_or] at changes
        have scheduled : (resetOf entry propsChanged false).schedule = true := by
          refine decide_eq_true ?_
          cases isSchedule : entry.schedule with
          | normal => exact absurd isSchedule changes.2
          | add => exact absurd isSchedule notAdded
          | delete => exact .inl rfl
          | replace => exact .inr rfl
        exact if_pos scheduled
      · rintro (impossible | isNormal)
        · cases impossible
        · have unscheduled : ¬ (resetOf entry propsChanged false).schedule = true := by
            refine fun scheduled => ?_
            rcases of_decide_eq_true scheduled with isDelete | isReplace
            · exact nomatch isNormal.symm.trans isDelete
            · exact nomatch isNormal.symm.trans isReplace
          exact if_neg unscheduled
      · exact (congrArg (ite _ none) noOld).trans (ite_self none)
      · exact (congrArg (ite _ none) noNew).trans (ite_self none)
      · exact (congrArg (ite _ none) noWrk).trans (ite_self none)
      · exact (congrArg (ite _ none) noPrej).trans (ite_self none)

end Rows

/-- The state of the loop over the entries of a directory, with those that are still to come. -/
structure Reverting (translator : Translator) (format : TimeFormat) (fuel : Nat) (path : Bytes) (own : WcDir)
    (now : Row) (rest : List (Sigma fun _ : Bytes => Entry)) (done : WcDir) : Prop where
  nodup : rest.NodupKeys
  listed : ∀ entry ∈ rest, own.row format entry.1 ≠ none
  kept : Kept format (fun other => other = thisDirName ∨ other ∉ rest.keys ∨ own.row format other = none)
    own done
  stable : OwnStable format path done now
  conflicts : ∀ file, own.Mentions format thisDirName file → done.inner.lookup file = none
  processed : ∀ name, name ≠ thisDirName → name ∉ rest.keys → own.row format name ≠ none →
    Reverted translator format whatIsLeft path own done name ∧
      (done.row format name ≠ none → Stable translator format fuel path done name)

section Loop

variable {translator : Translator} {format : TimeFormat} {fuel : Nat} {path : Bytes} {own done next : WcDir}
  {now : Row} {entry : Sigma fun _ : Bytes => Entry} {rest : List (Sigma fun _ : Bytes => Entry)}

theorem OwnStable.later {touched : Bytes → Prop} (stable : OwnStable format path done now)
    (kept : Kept format touched done next) (free : ¬ touched thisDirName) : OwnStable format path next now := by
  have sameRow := (kept.items thisDirName free).row
  refine ⟨sameRow.trans stable.isRow, stable.kind, stable.schedule, stable.noConflict, ?_⟩
  rw [dirProps, kept.dirProps free, kept.dirPropBase]
  exact stable.props

/-- The directory's own entry is passed by. -/
theorem Reverting.passed (reverting : Reverting translator format fuel path own now (entry :: rest) done)
    (isOwn : entry.1 = thisDirName) : Reverting translator format fuel path own now rest done := by
  have keys : ∀ name, name ≠ thisDirName → name ∉ rest.keys → name ∉ (entry :: rest).keys := by
    intro name named absent member
    exact (List.mem_cons.mp member).elim (fun same => named (same.trans isOwn)) absent
  refine ⟨(List.nodupKeys_cons.mp reverting.nodup).2,
    fun other member => reverting.listed other (List.mem_cons_of_mem _ member), ?_, reverting.stable,
    reverting.conflicts, fun name named absent => reverting.processed name named (keys name named absent)⟩
  refine reverting.kept.mono fun other touched => ?_
  rcases touched with same | absent | noRow
  · exact .inl same
  · exact .inr (.inl fun member => absent (List.mem_cons_of_mem _ member))
  · exact .inr (.inr noRow)

/-- An entry of the loop has not been touched before its round. -/
theorem Reverting.untouched (reverting : Reverting translator format fuel path own now (entry :: rest) done)
    (named : entry.1 ≠ thisDirName) :
    ¬ (entry.1 = thisDirName ∨ entry.1 ∉ (entry :: rest).keys ∨ own.row format entry.1 = none) := by
  rintro (same | absent | noRow)
  · exact named same
  · exact absent List.mem_cons_self
  · exact reverting.listed entry List.mem_cons_self noRow

/-- One round of the loop. -/
theorem Reverting.step (wellKept : WellKept format own)
    (reverting : Reverting translator format fuel path own now (entry :: rest) done)
    (named : entry.1 ≠ thisDirName) (spec : ItemReverted translator format fuel path done next entry.1) :
    Reverting translator format fuel path own now rest next := by
  obtain ⟨fresh, nodup⟩ := List.nodupKeys_cons.mp reverting.nodup
  have listed := reverting.listed entry List.mem_cons_self
  have untouched := reverting.untouched named
  have item := wellKept.item named listed
  have noRow : ∀ file, done.Mentions format entry.1 file → own.row format file = none := fun file mentioned =>
    item.ok.apart file ((reverting.kept.mentions untouched file).mp mentioned)
  have free : ∀ name, own.row format name ≠ none → name ≠ entry.1 →
      ¬ (name = entry.1 ∨ done.Mentions format entry.1 name) := by
    rintro name isListed differs (same | mentioned)
    · exact differs same
    · exact isListed (noRow name mentioned)
  have ownListed : own.row format thisDirName ≠ none := by
    intro absent
    exact nomatch (reverting.kept.noRow thisDirName absent).symm.trans reverting.stable.isRow
  have notGone : ∀ file, own.row format file = none → done.inner.lookup file = none →
      next.inner.lookup file = none := by
    intro file absent
    refine spec.gone file ?_
    rintro rfl
    exact listed absent
  refine ⟨nodup, fun other member => reverting.listed other (List.mem_cons_of_mem _ member), ?_,
    reverting.stable.later spec.kept (free thisDirName ownListed named.symm), ?_, ?_⟩
  · refine (reverting.kept.trans spec.kept).mono fun other touched => ?_
    rcases touched with (same | absent | unlisted) | (same | mentioned)
    · exact .inl same
    · exact .inr (.inl fun member => absent (List.mem_cons_of_mem _ member))
    · exact .inr (.inr unlisted)
    · exact .inr (.inl (same ▸ fresh))
    · exact .inr (.inr (noRow other mentioned))
  · intro file mentioned
    exact notGone file (wellKept.ok.apart file mentioned) (reverting.conflicts file mentioned)
  · intro name isNamed absent isListed
    by_cases same : name = entry.1
    · subst same
      exact ⟨spec.reverted.earlier reverting.kept untouched, spec.again⟩
    · have old : name ∉ (entry :: rest).keys := fun member => (List.mem_cons.mp member).elim same absent
      obtain ⟨reverted, again⟩ := reverting.processed name isNamed old isListed
      have nameFree := free name isListed same
      refine ⟨reverted.later spec.kept nameFree fun file mentioned => ?_, fun isThere => ?_⟩
      · exact notGone file ((wellKept.item isNamed isListed).ok.apart file mentioned)
      · rw [(spec.kept.items name nameFree).row] at isThere
        exact (again isThere).later spec.kept nameFree isNamed

end Loop

/-- A directory after it was reverted, with everything in it. -/
structure TreeReverted (translator : Translator) (format : TimeFormat) (outcome : Outcome)
    (path : Bytes) (own ownNow : WcDir) : Prop where
  directory : ∃ row now, OwnReverted format outcome path own ownNow row now
  items : ∀ other, other ≠ thisDirName → own.row format other ≠ none →
    Reverted translator format outcome path own ownNow other

/-- A directory of which nothing is to be reverted, under the url that it had. -/
structure TreeStable (translator : Translator) (format : TimeFormat) (fuel : Nat) (path : Bytes)
    (own ownNow : WcDir) : Prop where
  sound : ownNow.Sound format
  url : ownNow.url format = own.url format
  directory : ∃ now, OwnStable format path ownNow now
  items : ∀ other, other ≠ thisDirName → ownNow.row format other ≠ none →
    Stable translator format fuel path ownNow other

section Directories

variable {translator : Translator} {format : TimeFormat} {order : EntriesOrder} {clock : Clock}
  {fuel : Nat} {path name : Bytes} {dir own after : WcDir} {row now : Row} {entry : Entry} {root : Bool}

/-- The directory before the loop over its entries. -/
theorem reverting_start {file : List Atts} {back : EntriesHash} {inner : List (Bytes × Node)}
    {part : Option Stamped} (wellKept : WellKept format own)
    (found : (own.listed format).lookup thisDirName = some entry) (readable : Readable format file back)
    (othersKept : OthersKept thisDirName (own.listed format) back) (isNow : rowIn back thisDirName = some now)
    (reverted : RowReverted entry.row now)
    (settled : propsModifiedP path now.propTime ⟨part, own.adm.dirPropBase⟩ = .ok false)
    (conflicts : ∀ other, (entry.row.Mentions other → inner.lookup other = none) ∧
      (¬ entry.row.Mentions other → inner.lookup other = own.inner.lookup other)) :
    Reverting translator format fuel path own now (order.list back)
      (({ own with inner := inner }.withDirProps part).withEntries file) := by
  generalize isStart : ({ own with inner := inner }.withDirProps part).withEntries file = start
  have entries : start.adm.entries = file := by rw [← isStart]; rfl
  have isOwn : own.row format thisDirName = some entry.row := by rw [WcDir.row, rowIn, found]; rfl
  rw [← entries] at readable
  obtain ⟨sound, url, fits, rows, isRow⟩ := rows_of_othersKept readable othersKept
  rw [isNow] at isRow
  have noRow : ∀ other, own.row format other = none → start.row format other = none := by
    intro other absent
    have differs : other ≠ thisDirName := by
      rintro rfl
      cases absent.symm.trans isOwn
    rw [rows other differs, absent]
  have perm := order.perm back
  refine ⟨(List.perm_nodupKeys perm).mpr back.nodupKeys, ?_, ⟨sound, url, fits, noRow, ?_, ?_, ?_⟩, ?_, ?_, ?_⟩
  · intro listed member absent
    have isThere : start.row format listed.1 = some listed.2.row := by
      rw [WcDir.row, listed_of_readable readable, rowIn, lookup_of_mem (perm.mem_iff.mp member)]
      rfl
    cases (noRow listed.1 absent).symm.trans isThere
  · exact fun free => absurd (.inl rfl) free
  · rw [← isStart]
    rfl
  · intro other free
    rw [not_or, not_or, not_not] at free
    have unmentioned : ¬ entry.row.Mentions other := fun mentioned =>
      free.2.2 (wellKept.ok.apart other ⟨_, isOwn, mentioned⟩)
    refine ⟨?_, ?_, ?_, ?_, rows other free.1⟩
    · rw [← isStart]
      exact (conflicts other).2 unmentioned
    all_goals rw [← isStart]; rfl
  · refine ⟨isRow, ?_, reverted.schedule, reverted.noConflict, ?_⟩
    · exact reverted.kind.trans (wellKept.ok.row _ isOwn).1
    · rw [← isStart]
      exact settled
  · rintro other ⟨row, isRow, mentioned⟩
    obtain rfl : entry.row = row := Option.some.inj (isOwn.symm.trans isRow)
    rw [← isStart]
    exact (conflicts other).1 mentioned
  · intro name named absent isListed
    have gone : start.row format name = none := by
      rw [WcDir.row, listed_of_readable readable, rowIn]
      have noEntry : back.lookup name = none := by
        rw [AList.lookup_eq_none, AList.mem_keys]
        exact fun member => absent ((perm.map Sigma.fst).mem_iff.mpr member)
      rw [noEntry]
      rfl
    rw [rows name named] at gone
    exact absurd gone isListed

/-- The directory after the loop. -/
theorem Reverting.ends {ownNow : WcDir} (isOwn : own.row format thisDirName = some row)
    (notAdded : row.schedule ≠ .add) (marks : LeftBy False row now)
    (reverting : Reverting translator format fuel path own now [] ownNow) :
    TreeReverted translator format whatIsLeft path own ownNow ∧
      TreeStable translator format fuel path own ownNow := by
  have processed : ∀ other, other ≠ thisDirName → own.row format other ≠ none → _ := fun other named listed =>
    reverting.processed other named List.not_mem_nil listed
  refine ⟨⟨⟨row, now, isOwn, notAdded, marks, reverting.stable, reverting.kept.dirPropBase, ?_,
    reverting.kept.noRow⟩, ?_⟩, ⟨reverting.kept.sound, reverting.kept.url, ⟨now, reverting.stable⟩, ?_⟩⟩
  · exact fun file mentioned => reverting.conflicts file ⟨row, isOwn, mentioned⟩
  · exact fun other named listed => (processed other named listed).1
  · intro other named isThere
    refine (processed other named fun absent => ?_).2 isThere
    exact isThere (reverting.kept.noRow other absent)

/-- The case of a directory. Its parent has the new directory, and it may have a new entry for it. -/
theorem revertDir_spec {revert : Bytes → WcDir → Bytes → Except SvnError WcDir}
    (reverts : ∀ path dir name after, dir.Sound format → WellKeptItem format dir name →
      revert path dir name = .ok after → ItemReverted translator format fuel path dir after name)
    (isBelow : dir.below name = some own) (wellKept : WellKept format own)
    (found : (own.listed format).lookup thisDirName = some entry) (notAdded : entry.schedule ≠ .add)
    (reverted : revertDir format order clock revert path dir name root entry = .ok after) :
    ∃ ownNow propsChanged changed file, after = (dir.withBelow name ownNow).withEntries file ∧
      TreeReverted translator format whatIsLeft (addComponent path name) own ownNow ∧
      TreeStable translator format fuel (addComponent path name) own ownNow ∧
      (if (resetOf entry propsChanged false).any then
        (if root then .ok dir.adm.entries
          else entryModify format path dir.adm.entries (some name) (revertedEntry changed)
            (resetOf entry propsChanged false).flags)
        else .ok dir.adm.entries) = .ok file := by
  rw [revertDir, isBelow] at reverted
  obtain ⟨props, propsReverted, rest⟩ := bind_eq_ok reverted
  obtain ⟨inner, removed, rest⟩ := bind_eq_ok rest
  obtain ⟨files, updated, rest⟩ := bind_eq_ok rest
  obtain ⟨entries, read, rest⟩ := bind_eq_ok rest
  obtain ⟨ownNow, looped, ends⟩ := bind_eq_ok rest
  cases ends
  obtain ⟨parent, ownFile⟩ := resetEntries_parts updated
  obtain ⟨back, now, readable, othersKept, isNow, rowReverted, sameTime⟩ :=
    ownReset_spec wellKept.ok found notAdded ownFile
  obtain rfl : back = entries := Except.ok.inj (readable.read.symm.trans read)
  have settled := (revertProps_spec propsReverted).settledAgain fun base => wellKept.ok.base _ base
  rw [← sameTime] at settled
  have start := @reverting_start translator format order fuel _ own now entry _ _ _ _ wellKept found readable
    othersKept isNow rowReverted settled (removeConflictFiles_spec removed)
  have isOwn : own.row format thisDirName = some entry.row := by rw [WcDir.row, rowIn, found]; rfl
  have reverting := GuardedRuns.foldlM_ends (Reverting translator format fuel (addComponent path name) own now)
    (fun listed rest done next reverting round => ?_) _ start looped
  · obtain ⟨tree, stable⟩ := reverting.ends isOwn notAdded rowReverted.leftBy
    exact ⟨ownNow, props.changed, props.entry, files.1, rfl, tree, stable, parent⟩
  · rw [revertEntry] at round
    split at round
    case isTrue isThis =>
      cases round
      exact reverting.passed isThis
    case isFalse named =>
      have item := (wellKept.item named (reverting.listed listed List.mem_cons_self)).later reverting.kept
        (reverting.untouched named)
      exact reverting.step wellKept named (reverts _ _ _ _ reverting.kept.sound item round)

theorem thisUrl_of_found (found : (own.listed format).lookup thisDirName = some entry) :
    own.url format = entry.url := by
  rw [WcDir.url, thisUrl, found]
  rfl

/-- What is asked of the root of a working copy. -/
theorem switched_iff (sound : dir.Sound format) (soundOwn : own.Sound format)
    (found : (own.listed format).lookup thisDirName = some entry)
    (isRoot : svnWcIsWcRoot format dir name entry = .ok root) : Switched format dir name own ↔ root = true := by
  obtain ⟨again, isAgain, root_iff⟩ := svnWcIsWcRoot_ok sound name entry
  obtain rfl : root = again := Except.ok.inj (isRoot.symm.trans isAgain)
  have hasUrl : entry.url ≠ none := by
    obtain ⟨thisDir, isThis, hasUrl, -⟩ := soundOwn.thisDir
    obtain rfl : entry = thisDir := Option.some.inj (found.symm.trans isThis)
    exact hasUrl
  rw [Switched, thisUrl_of_found found]
  constructor
  · intro differs
    refine Bool.eq_true_of_not_eq_false fun notRoot => ?_
    exact (root_iff.mp notRoot).elim hasUrl differs
  · rintro rfl same
    cases root_iff.mpr (.inr same)

theorem below_withBelow (isBelow : dir.below name = some own) (ownNow : WcDir) (file : List Atts) :
    ((dir.withBelow name ownNow).withEntries file).below name = some ownNow := by
  apply below_of_lookup
  show (replaced name (.dir (some ownNow.adm) ownNow.inner) dir.inner).lookup name = _
  rw [lookup_replaced, if_pos rfl, lookup_of_below isBelow]
  rfl

theorem dir_spec
    (reverts : ∀ path dir name after, dir.Sound format → WellKeptItem format dir name →
      svnWcRevert translator format order clock fuel path dir name = .ok after →
        ItemReverted translator format fuel path dir after name)
    (sound : dir.Sound format) (item : WellKeptItem format dir name) (isRow : dir.row format name = some row)
    (isEntry : svnWcEntry format path dir name = .ok (some entry)) (notAdded : entry.schedule ≠ .add)
    (isRoot : svnWcIsWcRoot format dir name entry = .ok root)
    (reverted : revertDir format order clock (svnWcRevert translator format order clock fuel) path dir name root
      entry = .ok after) : ItemReverted translator format (fuel + 1) path dir after name := by
  cases isBelow : dir.below name with
  | none =>
      rw [revertDir, isBelow] at reverted
      cases reverted
  | some own =>
      obtain ⟨found, -⟩ := entry_of_below item.ok isRow isBelow isEntry
      have isOwn : own.row format thisDirName = some entry.row := by rw [WcDir.row, rowIn, found]; rfl
      have wellKept := item.below own entry.row isBelow isOwn notAdded
      obtain ⟨ownNow, propsChanged, changed, file, rfl, tree, stable, parent⟩ :=
        revertDir_spec reverts isBelow wellKept found notAdded reverted
      obtain ⟨back, now, readable, othersKept, isNow, leftBy, noConflict⟩ :=
        parentReset_spec sound isRow (item.ok.own row own isRow isBelow).1 notAdded parent
      have isSwitched := propext (switched_iff sound wellKept.ok.sound found isRoot)
      obtain ⟨soundAfter, url, fits, rows, rowNow⟩ :=
        @rows_of_othersKept _ _ ((dir.withBelow name ownNow).withEntries file) _ _ readable othersKept
      have others : ∀ other, other ≠ name →
          ((dir.withBelow name ownNow).withEntries file).inner.lookup other = dir.inner.lookup other := by
        intro other differs
        show (replaced name _ dir.inner).lookup other = _
        rw [lookup_replaced, if_neg differs]
      have belowNow := below_withBelow isBelow ownNow file
      obtain ⟨ownRow, ownRowNow, directory⟩ := tree.directory
      refine ⟨⟨soundAfter, url, fits, ?_, fun _ => rfl, rfl, ?_⟩, ?_, ?_, ?_⟩
      · intro other absent
        have differs : other ≠ name := by
          rintro rfl
          cases absent.symm.trans isRow
        rw [rows other differs, absent]
      · intro other free
        have differs : other ≠ name := fun same => free (.inl same)
        exact ⟨others other differs, rfl, rfl, rfl, rows other differs⟩
      · intro other differs absent
        rw [others other differs, absent]
      · cases isOwn.symm.trans directory.isRow
        refine .dir isRow isBelow (rowNow.trans isNow) belowNow ?_ noConflict directory tree.items
        rw [isSwitched]
        exact leftBy
      · intro _
        rw [Stable, belowNow]
        exact ⟨stable.sound, stable.directory, stable.items⟩

/-- Every item of a working copy, with everything in it. -/
theorem svnWcRevert_spec (fuel : Nat) : ∀ path dir name after, dir.Sound format → WellKeptItem format dir name →
    svnWcRevert translator format order clock fuel path dir name = .ok after →
      ItemReverted translator format fuel path dir after name := by
  induction fuel with
  | zero => exact fun _ _ _ _ _ _ reverted => nomatch reverted
  | succ fuel ih =>
      intro path dir name after sound item reverted
      obtain ⟨row, isRow⟩ := Option.ne_none_iff_exists'.mp item.listed
      obtain ⟨entry, root, isEntry, isRoot, way⟩ := svnWcRevert_cases reverted
      cases way with
      | addedDir removal isAdded isDir removed ends =>
          subst ends
          exact addedDir_spec sound item.ok isRow isEntry isAdded removed
      | addedFile removal isAdded isFile removed ends =>
          subst ends
          exact addedFile_spec sound item.ok isRow isEntry isAdded isFile removed
      | dir notAdded isDir reverted => exact dir_spec ih sound item isRow isEntry notAdded isRoot reverted
      | file notAdded isFile notRoot reverted =>
          subst notRoot
          exact file_spec sound item.named item.ok isRow isEntry notAdded isFile isRoot reverted

end Directories

end Subversion.Wc
