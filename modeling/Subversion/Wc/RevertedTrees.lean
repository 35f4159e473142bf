/-
This file shows what reverting leaves of a directory tree.
-/

import Subversion.Wc.ReleasedTrees

namespace Subversion.Wc

open Delta Subr Lib

/-- The entry of the name mentions a file of its conflict. -/
def WcDir.Mentions (format : TimeFormat) (dir : WcDir) (name file : Bytes) : Prop :=
  ∃ row, dir.row format name = some row ∧ row.Mentions file

/-- The directory has another url than its name has below the parent. -/
def Switched (format : TimeFormat) (dir : WcDir) (name : Bytes) (own : WcDir) : Prop :=
  own.url format ≠ (dir.url format).map (addComponent · name)

/-- The entry that an item has in its own directory, or else in its parent. -/
def WcDir.itemRow (format : TimeFormat) (dir : WcDir) (name : Bytes) : Option Row :=
  (dir.below name).elim (dir.row format name) fun own => own.row format thisDirName

/-- The files of a conflict are not versioned, a file is no directory, and a directory has its conflicts in its
own entry. -/
structure ItemOk (format : TimeFormat) (dir : WcDir) (name : Bytes) : Prop where
  apart : ∀ file, dir.Mentions format name file → dir.row format file = none
  file : ∀ row, dir.row format name = some row → row.kind = .file → dir.below name = none
  own : ∀ row own, dir.row format name = some row → dir.below name = some own →
    (∀ file, ¬ row.Mentions file) ∧ ∃ ownRow, own.row format thisDirName = some ownRow ∧ ownRow.kind = .dir

/-- A directory has no conflict in its text, and its unmodified properties can be read. -/
structure OwnOk (format : TimeFormat) (own : WcDir) : Prop where
  sound : own.Sound format
  row : ∀ row, own.row format thisDirName = some row → row.kind = .dir ∧ row.conflictOld = none ∧
    row.conflictNew = none ∧ row.conflictWrk = none
  apart : ∀ file, own.Mentions format thisDirName file → own.row format file = none
  base : ∀ path base, own.adm.dirPropBase = some base → ∃ hash, readPropFile ⟨path, some base⟩ = .ok hash

/-- All directories that are reached through entries that were not added are as the library leaves them. -/
inductive WellKept (format : TimeFormat) : WcDir → Prop where
  | intro {own : WcDir} (ok : OwnOk format own)
      (items : ∀ name, name ≠ thisDirName → own.row format name ≠ none → ItemOk format own name)
      (below : ∀ name sub row, name ≠ thisDirName → own.row format name ≠ none → own.below name = some sub →
        sub.row format thisDirName = some row → row.schedule ≠ .add → WellKept format sub) : WellKept format own

structure WellKeptItem (format : TimeFormat) (dir : WcDir) (name : Bytes) : Prop where
  named : name ≠ thisDirName
  listed : dir.row format name ≠ none
  ok : ItemOk format dir name
  below : ∀ sub row, dir.below name = some sub → sub.row format thisDirName = some row → row.schedule ≠ .add →
    WellKept format sub

structure SameMarks (row now : Row) : Prop where
  copied : now.copied = row.copied
  copyfromUrl : now.copyfromUrl = row.copyfromUrl
  copyfromRev : now.copyfromRev = row.copyfromRev

/-- The marks stay, and sometimes the schedule does. -/
structure LeftBy (stays : Prop) (row now : Row) : Prop where
  marks : SameMarks row now
  reset : ¬ stays → now.schedule = .normal
  stays : stays → now.schedule = row.schedule

/-- What is said of an entry that goes, and of one that stays. -/
structure Outcome where
  gone : Row → Prop
  kept : Prop → Row → Row → Prop

def whatIsLeft : Outcome := ⟨fun _ => True, LeftBy⟩

/-- A directory that is as it should be, under its own entry. -/
structure OwnStable (format : TimeFormat) (path : Bytes) (own : WcDir) (now : Row) : Prop where
  isRow : own.row format thisDirName = some now
  kind : now.kind = .dir
  schedule : now.schedule = .normal
  noConflict : ∀ file, ¬ now.Mentions file
  props : propsModifiedP path now.propTime (dirProps own) = .ok false

/-- A directory after it was reverted, apart from its items. -/
structure OwnReverted (format : TimeFormat) (outcome : Outcome) (path : Bytes)
    (own ownNow : WcDir) (row now : Row) : Prop where
  isRow : own.row format thisDirName = some row
  notAdded : row.schedule ≠ .add
  keeps : outcome.kept False row now
  stable : OwnStable format path ownNow now
  dirPropBase : ownNow.adm.dirPropBase = own.adm.dirPropBase
  conflicts : ∀ file, row.Mentions file → ownNow.inner.lookup file = none
  noRow : ∀ name, own.row format name = none → ownNow.row format name = none

/-- An item after it was reverted. -/
inductive Reverted (translator : Translator) (format : TimeFormat) (outcome : Outcome) :
    Bytes → WcDir → WcDir → Bytes → Prop where
  | released {path : Bytes} {before after : WcDir} {name : Bytes} {row itemRow : Row}
      (isRow : before.row format name = some row) (isItem : before.itemRow format name = some itemRow)
      (isAdded : itemRow.schedule = .add) (goes : outcome.gone row) (gone : after.row format name = none)
      (noBelow : after.below name = none)
      (released : Released (itemStanding translator format before (.thisDir name)) (before.inner.lookup name)
        (after.inner.lookup name)) : Reverted translator format outcome path before after name
  | file {path : Bytes} {before after : WcDir} {name : Bytes} {row now : Row}
      (isRow : before.row format name = some row) (notAdded : row.schedule ≠ .add)
      (noBelow : before.below name = none) (isNow : after.row format name = some now)
      (keeps : outcome.kept False row now) (stable : FileStable translator format path after name now)
      (textBase : after.adm.textBase name = before.adm.textBase name)
      (propBase : after.adm.propBase name = before.adm.propBase name)
      (conflicts : ∀ file, row.Mentions file → after.inner.lookup file = none) :
      Reverted translator format outcome path before after name
  | dir {path : Bytes} {before after : WcDir} {name : Bytes} {row now : Row} {own ownNow : WcDir}
      {ownRow ownRowNow : Row} (isRow : before.row format name = some row)
      (isBelow : before.below name = some own) (isNow : after.row format name = some now)
      (belowNow : after.below name = some ownNow)
      (keeps : outcome.kept (Switched format before name own ∨ ownRow.schedule = .normal) row now)
      (noConflict : ∀ file, ¬ now.Mentions file)
      (directory : OwnReverted format outcome (addComponent path name) own ownNow ownRow ownRowNow)
      (items : ∀ other, other ≠ thisDirName → own.row format other ≠ none →
        Reverted translator format outcome (addComponent path name) own ownNow other) :
      Reverted translator format outcome path before after name

/-- An item of which nothing is to be reverted. -/
def Stable (translator : Translator) (format : TimeFormat) : Nat → Bytes → WcDir → Bytes → Prop
  | 0, _, _, _ => False
  | fuel + 1, path, dir, name =>
      match dir.below name with
      | none => dir.Fits format name ∧ ∃ now, dir.row format name = some now ∧ now.kind = .file ∧
          FileStable translator format path dir name now
      | some own => own.Sound format ∧ (∃ now, OwnStable format (addComponent path name) own now) ∧
          ∀ other, other ≠ thisDirName → own.row format other ≠ none →
            Stable translator format fuel (addComponent path name) own other

section Frames

variable {translator : Translator} {format : TimeFormat} {outcome : Outcome} {path name : Bytes}
  {before done next : WcDir} {touched : Bytes → Prop} {now : Row}

theorem itemRow_noBelow (noBelow : before.below name = none) :
    before.itemRow format name = before.row format name := by
  rw [WcDir.itemRow, noBelow, Option.elim_none]

theorem itemRow_below {own : WcDir} (isBelow : before.below name = some own) :
    before.itemRow format name = own.row format thisDirName := by
  rw [WcDir.itemRow, isBelow, Option.elim_some]

theorem WellKept.item {own : WcDir} (wellKept : WellKept format own) (named : name ≠ thisDirName)
    (listed : own.row format name ≠ none) : WellKeptItem format own name := by
  cases wellKept with
  | intro ok items below =>
      exact ⟨named, listed, items name named listed, fun sub row => below name sub row named listed⟩

theorem WellKept.ok {own : WcDir} (wellKept : WellKept format own) : OwnOk format own := by
  cases wellKept with
  | intro ok => exact ok

theorem Kept.mentions (kept : Kept format touched before done) (free : ¬ touched name) (file : Bytes) :
    done.Mentions format name file ↔ before.Mentions format name file := by
  rw [WcDir.Mentions, WcDir.Mentions, (kept.items name free).row]

/-- What has not been touched is as well kept as before. -/
theorem WellKeptItem.later (item : WellKeptItem format before name) (kept : Kept format touched before done)
    (free : ¬ touched name) : WellKeptItem format done name := by
  have same := kept.items name free
  refine ⟨item.named, same.row ▸ item.listed, ⟨?_, ?_, ?_⟩, ?_⟩
  · intro file mentioned
    exact kept.noRow file (item.ok.apart file ((kept.mentions free file).mp mentioned))
  · rw [same.row, same.below]
    exact item.ok.file
  · rw [same.row, same.below]
    exact item.ok.own
  · rw [same.below]
    exact item.below

theorem itemProps_same (same : SameItem format name done next) : itemProps next name = itemProps done name := by
  rw [itemProps, itemProps, same.below, same.props, same.propBase]

theorem FileStable.later (stable : FileStable translator format path done name now)
    (kept : Kept format touched done next) (free : ¬ touched name) :
    FileStable translator format path next name now := by
  have same := kept.items name free
  refine ⟨stable.schedule, stable.noConflict, ?_, ?_, ?_⟩
  · rw [same.inner]
    exact stable.working
  · exact textModifiedP_same kept.sound stable.text same.inner.symm same.textBase.symm same.props.symm
      (by rw [same.row])
  · rw [itemProps_same same]
    exact stable.props

theorem Stable.later {fuel : Nat} (stable : Stable translator format fuel path done name)
    (kept : Kept format touched done next) (free : ¬ touched name) (named : name ≠ thisDirName) :
    Stable translator format fuel path next name := by
  have same := kept.items name free
  cases fuel with
  | zero => exact stable
  | succ fuel =>
      rw [Stable] at stable ⊢
      rw [same.below]
      cases isBelow : done.below name with
      | some own =>
          rw [isBelow] at stable
          exact stable
      | none =>
          rw [isBelow] at stable
          obtain ⟨fits, now, isRow, kind, isStable⟩ := stable
          exact ⟨kept.fits name named fits, now, same.row.trans isRow, kind, isStable.later kept free⟩

/-- What is done for other items changes nothing. -/
theorem Reverted.later (reverted : Reverted translator format outcome path before done name)
    (kept : Kept format touched done next) (free : ¬ touched name)
    (gone : ∀ file, before.Mentions format name file → done.inner.lookup file = none →
      next.inner.lookup file = none) : Reverted translator format outcome path before next name := by
  have same := kept.items name free
  cases reverted with
  | released isRow isItem isAdded goes gone noBelow released =>
      exact .released isRow isItem isAdded goes (same.row.trans gone) (same.below.trans noBelow)
        (same.inner ▸ released)
  | file isRow notAdded noBelow isNow keeps stable textBase propBase conflicts =>
      exact .file isRow notAdded noBelow (same.row.trans isNow) keeps (stable.later kept free)
        (same.textBase.trans textBase) (same.propBase.trans propBase)
        fun file mentioned => gone file ⟨_, isRow, mentioned⟩ (conflicts file mentioned)
  | dir isRow isBelow isNow belowNow keeps noConflict directory items =>
      exact .dir isRow isBelow (same.row.trans isNow) (same.below.trans belowNow) keeps noConflict
        directory items

/-- It does not matter what was done for other items before. -/
theorem Reverted.earlier (reverted : Reverted translator format outcome path done next name)
    (kept : Kept format touched before done) (free : ¬ touched name) :
    Reverted translator format outcome path before next name := by
  have same := kept.items name free
  cases reverted with
  | released isRow isItem isAdded goes gone noBelow released =>
      have sameItem : done.itemRow format name = before.itemRow format name := by
        rw [WcDir.itemRow, WcDir.itemRow, same.below, same.row]
      refine .released (same.row.symm.trans isRow) (sameItem.symm.trans isItem) isAdded goes gone noBelow ?_
      have standing : itemStanding translator format done (.thisDir name) =
          itemStanding translator format before (.thisDir name) := by
        funext path
        rw [itemStanding, itemStanding, same.below]
      rw [← same.inner, ← standing]
      exact released
  | file isRow notAdded noBelow isNow keeps stable textBase propBase conflicts =>
      exact .file (same.row.symm.trans isRow) notAdded (same.below.symm.trans noBelow) isNow keeps stable
        (textBase.trans same.textBase) (propBase.trans same.propBase) conflicts
  | dir isRow isBelow isNow belowNow keeps noConflict directory items =>
      refine .dir (same.row.symm.trans isRow) (same.below.symm.trans isBelow) isNow belowNow ?_
        noConflict directory items
      rw [Switched, ← kept.url]
      exact keeps

end Frames

section Lookups

variable {format : TimeFormat} {path name : Bytes} {dir own : WcDir}

theorem lookup_of_below (isBelow : dir.below name = some own) :
    dir.inner.lookup name = some (.dir (some own.adm) own.inner) := by
  rw [WcDir.below] at isBelow
  split at isBelow
  case h_1 adm inner found =>
    cases isBelow
    exact found
  case h_2 => cases isBelow

theorem below_of_lookup (found : dir.inner.lookup name = some (.dir (some own.adm) own.inner)) :
    dir.below name = some own := by
  rw [WcDir.below, found]

theorem svnWcEntry_below (isBelow : dir.below name = some own) :
    svnWcEntry format path dir name =
      entriesRead format own.adm.entries >>= fun entries => .ok (entries.lookup thisDirName) := by
  rw [svnWcEntry, lookup_of_below isBelow]

theorem svnWcEntry_noDir (noDir : ∀ adm inner, dir.inner.lookup name ≠ some (.dir adm inner)) :
    svnWcEntry format path dir name =
      entriesRead format dir.adm.entries >>= fun entries => .ok (entries.lookup name) := by
  rw [svnWcEntry]
  split
  case h_1 isDir => exact absurd isDir (noDir _ _)
  case h_2 isDir => exact absurd isDir (noDir _ _)
  case h_3 => rfl

/-- A directory that is not a working copy has no entry. -/
theorem noDir_of_svnWcEntry {found : Option Entry} (noBelow : dir.below name = none)
    (isEntry : svnWcEntry format path dir name = .ok found) (adm : Option Adm) (inner : List (Bytes × Node)) :
    dir.inner.lookup name ≠ some (.dir adm inner) := by
  intro isDir
  cases adm with
  | none =>
      rw [svnWcEntry, isDir] at isEntry
      cases isEntry
  | some adm =>
      rw [WcDir.below, isDir] at noBelow
      cases noBelow

/-- In a directory with readable entries it is always known what a root is. -/
theorem svnWcIsWcRoot_ok (sound : dir.Sound format) (name : Bytes) (entry : Entry) :
    ∃ root, svnWcIsWcRoot format dir name entry = .ok root ∧
      (root = false ↔ entry.url = none ∨ entry.url = (dir.url format).map (addComponent · name)) := by
  obtain ⟨thisDir, found, hasUrl, -⟩ := sound.thisDir
  obtain ⟨url, isUrl⟩ := Option.ne_none_iff_exists'.mp hasUrl
  have dirUrl : dir.url format = some url := by
    rw [WcDir.url, thisUrl, found]
    exact isUrl
  refine ⟨decide (entry.url.isSome ∧ entry.url ≠ some (addComponent url name)), ?_, ?_⟩
  · rw [svnWcIsWcRoot, sound.read]
    dsimp only
    rw [found, Option.map_some, isUrl]
  · rw [dirUrl, decide_eq_false_iff_not, not_and_or, not_not, Option.not_isSome_iff_eq_none, Option.map_some]

end Lookups

section Again

variable {translator : Translator} {format : TimeFormat} {order : EntriesOrder} {clock : Clock}
  {path name : Bytes} {dir own : WcDir} {entry : Entry}

/-- Nothing is done for a directory that is as it should be, if nothing is done for what is in it. -/
theorem revertDir_stable {revert : Bytes → WcDir → Bytes → Except SvnError WcDir} {root : Bool}
    (isBelow : dir.below name = some own) (sound : own.Sound format)
    (stable : OwnStable format (addComponent path name) own entry.row)
    (items : ∀ other, other ≠ thisDirName → own.row format other ≠ none →
      revert (addComponent path name) own other = .ok own) :
    revertDir format order clock revert path dir name root entry = .ok dir := by
  have entries : resetEntries format path dir name root own.adm.entries entry (resetOf entry false false) =
      .ok (dir.adm.entries, own.adm.entries) := by
    rw [resetEntries, resetOf_nothing stable.schedule stable.noConflict]
    rfl
  have loop : (order.list (own.listed format)).foldlM (revertEntry revert (addComponent path name)) own =
      .ok own := by
    refine GuardedRuns.foldlM_stays _ fun listed member => ?_
    rw [revertEntry]
    split
    case isTrue => rfl
    case isFalse named =>
      refine items listed.1 named ?_
      have found := lookup_of_mem ((order.perm _).mem_iff.mp member)
      rw [WcDir.row, rowIn, found]
      exact Option.some_ne_none _
  have same : dir.withBelow name own = dir := by
    rw [WcDir.withBelow, replaced_self (lookup_of_below isBelow)]
  rw [revertDir, isBelow]
  dsimp only
  rw [revertProps_unmodified stable.props, ok_bind, removeConflictFiles_nothing stable.noConflict, ok_bind,
    entries, ok_bind, sound.read, ok_bind]
  change (order.list (own.listed format)).foldlM (revertEntry revert (addComponent path name)) own >>= _ = _
  rw [loop, ok_bind, same]
  rfl

/-- The same by the name of the directory, if it is known what a root is. -/
theorem svnWcRevert_below {fuel : Nat} {now : Row} (isBelow : dir.below name = some own)
    (sound : own.Sound format) (stable : OwnStable format (addComponent path name) own now)
    (isRoot : ∀ entry, (own.listed format).lookup thisDirName = some entry →
      ∃ root, svnWcIsWcRoot format dir name entry = .ok root)
    (items : ∀ other, other ≠ thisDirName → own.row format other ≠ none →
      svnWcRevert translator format order clock fuel (addComponent path name) own other = .ok own) :
    svnWcRevert translator format order clock (fuel + 1) path dir name = .ok dir := by
  obtain ⟨entry, found, rfl⟩ := entry_of_row stable.isRow
  obtain ⟨root, isRoot⟩ := isRoot entry found
  have isDir : entry.kind = .dir := (sound.kind found).symm.trans stable.kind
  have notAdded : entry.schedule ≠ .add := by
    have normal : entry.schedule = .normal := stable.schedule
    rw [normal]
    nofun
  rw [svnWcRevert, svnWcEntry_below isBelow, sound.read, ok_bind, ok_bind, found]
  dsimp only
  rw [if_neg fun neither => neither.2 isDir, isRoot, ok_bind, if_neg notAdded, if_pos isDir]
  exact revertDir_stable isBelow sound stable items

/-- Reverting what is as it should be changes nothing. -/
theorem svnWcRevert_stable (fuel : Nat) : ∀ {path dir name}, dir.Sound format →
    Stable translator format fuel path dir name →
      svnWcRevert translator format order clock fuel path dir name = .ok dir := by
  induction fuel with
  | zero => exact fun _ stable => stable.elim
  | succ fuel ih =>
      intro path dir name sound stable
      rw [Stable] at stable
      split at stable
      case h_1 noBelow =>
        obtain ⟨fits, now, isRow, kind, isStable⟩ := stable
        obtain ⟨entry, found, rfl⟩ := entry_of_row isRow
        obtain ⟨root, isRoot, root_iff⟩ := svnWcIsWcRoot_ok sound name entry
        obtain rfl : root = false := root_iff.mpr (fits entry found)
        have isFile : entry.kind = .file := (sound.kind found).symm.trans kind
        have notAdded : entry.schedule ≠ .add := by
          have normal : entry.schedule = .normal := isStable.schedule
          rw [normal]
          nofun
        rw [svnWcRevert, svnWcEntry_noDir isStable.noDir, sound.read, ok_bind, ok_bind, found]
        dsimp only
        rw [if_neg fun neither => neither.1 isFile, isRoot, ok_bind, if_neg notAdded,
          if_neg (by rw [isFile]; nofun), if_neg (by nofun), revertFile_stable isStable]
      case h_2 own isBelow =>
        obtain ⟨soundOwn, ⟨now, isStable⟩, items⟩ := stable
        refine svnWcRevert_below isBelow soundOwn isStable (fun entry _ => ?_) fun other named listed =>
          ih soundOwn (items other named listed)
        obtain ⟨root, isRoot, -⟩ := svnWcIsWcRoot_ok sound name entry
        exact ⟨root, isRoot⟩

end Again

end Subversion.Wc
