/-
This file shows when a reversion gives back what a working copy came with.
-/

import Subversion.Wc.Reversions

namespace Subversion.Wc

open Delta Subr Lib

/-- The entry says that it is a copy. -/
def Row.Marked (row : Row) : Prop :=
  row.copied = true ∨ row.copyfromUrl ≠ none ∨ row.copyfromRev ≠ invalidRevnum

/-- What is asked of an entry that stays after the reversion. -/
structure Asked (_stays : Prop) (row now : Row) : Prop where
  notAdded : row.schedule ≠ .add
  schedule : now.schedule = .normal
  unmarked : ¬ now.Marked

def whatIsAsked : Outcome := ⟨fun row => row.schedule = .add, Asked⟩

/-- No entry is marked as a copy, the two entries of a directory are not at odds, and a switched directory is
not scheduled. What is below an item that was added does not matter. -/
inductive Restorable (format : TimeFormat) : WcDir → Bytes → Prop where
  | released {dir : WcDir} {name : Bytes} {row itemRow : Row} (isRow : dir.row format name = some row)
      (isItem : dir.itemRow format name = some itemRow) (isAdded : itemRow.schedule = .add)
      (scheduled : row.schedule = .add) : Restorable format dir name
  | file {dir : WcDir} {name : Bytes} {row : Row} (isRow : dir.row format name = some row)
      (notAdded : row.schedule ≠ .add) (noBelow : dir.below name = none) (unmarked : ¬ row.Marked) :
      Restorable format dir name
  | dir {dir own : WcDir} {name : Bytes} {row ownRow : Row} (isRow : dir.row format name = some row)
      (notAdded : row.schedule ≠ .add) (isBelow : dir.below name = some own) (unmarked : ¬ row.Marked)
      (unscheduled : Switched format dir name own ∨ ownRow.schedule = .normal → row.schedule = .normal)
      (isOwn : own.row format thisDirName = some ownRow) (ownNotAdded : ownRow.schedule ≠ .add)
      (ownUnmarked : ¬ ownRow.Marked)
      (items : ∀ other, other ≠ thisDirName → own.row format other ≠ none → Restorable format own other) :
      Restorable format dir name

/-- The same for everything in a directory. -/
structure TreeRestorable (format : TimeFormat) (own : WcDir) : Prop where
  unmarked : ∀ row, own.row format thisDirName = some row → ¬ row.Marked
  items : ∀ other, other ≠ thisDirName → own.row format other ≠ none → Restorable format own other

/-- What is asked of a reversion, and of another one after it. -/
structure Restores (translator : Translator) (format : TimeFormat) (order : EntriesOrder) (clock : Clock)
    (fuel : Nat) (path : Bytes) (before after : WcDir) (name : Bytes) : Prop where
  reverted : Reverted translator format whatIsAsked path before after name
  again : svnWcRevert translator format order clock fuel path after name = .ok after ∨
    after.row format name = none ∧
      ∃ error, svnWcRevert translator format order clock fuel path after name = .error error

/-- The same for the root of a working copy, whose parent stays as it was. -/
structure RestoresRoot (translator : Translator) (format : TimeFormat) (order : EntriesOrder) (clock : Clock)
    (fuel : Nat) (path : Bytes) (before : WcDir) (name : Bytes) (own after : WcDir) : Prop where
  tree : ∃ ownNow, after = before.withBelow name ownNow ∧
    TreeReverted translator format whatIsAsked (addComponent path name) own ownNow
  again : svnWcRevert translator format order clock fuel path after name = .ok after

/-- A root has no entry in its parent, or another url there, and it was not added. -/
structure WellKeptRoot (format : TimeFormat) (dir : WcDir) (name : Bytes) (own : WcDir) : Prop where
  isBelow : dir.below name = some own
  wellKept : WellKept format own
  notAdded : ∀ row, own.row format thisDirName = some row → row.schedule ≠ .add
  isRoot : ∀ entry, (own.listed format).lookup thisDirName = some entry →
    svnWcIsWcRoot format dir name entry = .ok true

section Outcomes

variable {translator : Translator} {format : TimeFormat} {path name : Bytes} {before after own ownNow : WcDir}
  {row now : Row}

theorem SameMarks.marked_iff (same : SameMarks row now) : now.Marked ↔ row.Marked := by
  rw [Row.Marked, Row.Marked, same.copied, same.copyfromUrl, same.copyfromRev]

theorem LeftBy.asked_iff {stays : Prop} (left : LeftBy stays row now) : Asked stays row now ↔
    row.schedule ≠ .add ∧ (stays → row.schedule = .normal) ∧ ¬ row.Marked := by
  constructor
  · intro asked
    exact ⟨asked.notAdded, fun isStaying => (left.stays isStaying).symm.trans asked.schedule,
      fun isMarked => asked.unmarked (left.marks.marked_iff.mpr isMarked)⟩
  · rintro ⟨notAdded, unscheduled, unmarked⟩
    refine ⟨notAdded, ?_, fun isMarked => unmarked (left.marks.marked_iff.mp isMarked)⟩
    by_cases isStaying : stays
    · exact (left.stays isStaying).trans (unscheduled isStaying)
    · exact left.reset isStaying

theorem OwnReverted.asked_iff (reverted : OwnReverted format whatIsLeft path own ownNow row now) :
    OwnReverted format whatIsAsked path own ownNow row now ↔ ¬ row.Marked := by
  have left : LeftBy False row now := reverted.keeps
  constructor
  · exact fun asked => (left.asked_iff.mp asked.keeps).2.2
  · exact fun unmarked =>
      { reverted with keeps := left.asked_iff.mpr ⟨reverted.notAdded, False.elim, unmarked⟩ }

/-- A directory has no other entry than the one that it says itself. -/
theorem itemRow_unique {itemRow : Row} (isItem : before.itemRow format name = some itemRow)
    (isAdded : itemRow.schedule = .add) :
    (∀ row, before.below name = none → before.row format name = some row → row.schedule = .add) ∧
      ∀ own ownRow, before.below name = some own → own.row format thisDirName = some ownRow →
        ownRow.schedule = .add := by
  constructor
  · intro row noBelow isRow
    cases ((itemRow_noBelow noBelow).symm.trans isItem).symm.trans isRow
    exact isAdded
  · intro own ownRow isBelow isOwn
    cases ((itemRow_below isBelow).symm.trans isItem).symm.trans isOwn
    exact isAdded

/-- This is all that a reversion leaves. -/
theorem Reverted.asked_iff (reverted : Reverted translator format whatIsLeft path before after name) :
    Reverted translator format whatIsAsked path before after name ↔ Restorable format before name := by
  induction reverted with
  | released isRow isItem isAdded goes gone noBelow released =>
      constructor
      · intro asked
        cases asked with
        | released isAgain _ _ goes =>
            cases isRow.symm.trans isAgain
            exact .released isRow isItem isAdded goes
        | file _ _ _ isNow => exact nomatch gone.symm.trans isNow
        | dir _ _ isNow => exact nomatch gone.symm.trans isNow
      · intro restorable
        cases restorable with
        | released isAgain _ _ scheduled =>
            cases isRow.symm.trans isAgain
            exact .released isRow isItem isAdded scheduled gone noBelow released
        | file isAgain notAdded noBelowBefore =>
            exact absurd ((itemRow_unique isItem isAdded).1 _ noBelowBefore isAgain) notAdded
        | dir _ _ isBelow _ _ isOwn ownNotAdded =>
            exact absurd ((itemRow_unique isItem isAdded).2 _ _ isBelow isOwn) ownNotAdded
  | file isRow notAdded noBelow isNow keeps stable textBase propBase conflicts =>
      constructor
      · intro asked
        cases asked with
        | released _ isItem isAdded => exact absurd ((itemRow_unique isItem isAdded).1 _ noBelow isRow) notAdded
        | file isAgain _ _ isNowAgain asked =>
            cases isRow.symm.trans isAgain
            cases isNow.symm.trans isNowAgain
            exact .file isRow notAdded noBelow (LeftBy.asked_iff keeps |>.mp asked).2.2
        | dir _ isBelow => exact nomatch noBelow.symm.trans isBelow
      · intro restorable
        cases restorable with
        | released _ isItem isAdded => exact absurd ((itemRow_unique isItem isAdded).1 _ noBelow isRow) notAdded
        | file isAgain _ _ unmarked =>
            cases isRow.symm.trans isAgain
            exact .file isRow notAdded noBelow isNow
              (LeftBy.asked_iff keeps |>.mpr ⟨notAdded, False.elim, unmarked⟩) stable textBase propBase conflicts
        | dir _ _ isBelow => exact nomatch noBelow.symm.trans isBelow
  | dir isRow isBelow isNow belowNow keeps noConflict directory items ih =>
      constructor
      · intro asked
        cases asked with
        | released _ isItem isAdded =>
            exact absurd ((itemRow_unique isItem isAdded).2 _ _ isBelow directory.isRow) directory.notAdded
        | file _ _ noBelow => exact nomatch noBelow.symm.trans isBelow
        | dir isAgain belowAgain isNowAgain belowNowAgain asked _ ownAsked itemsAsked =>
            cases isRow.symm.trans isAgain
            cases isBelow.symm.trans belowAgain
            cases isNow.symm.trans isNowAgain
            cases belowNow.symm.trans belowNowAgain
            cases directory.isRow.symm.trans ownAsked.isRow
            cases directory.stable.isRow.symm.trans ownAsked.stable.isRow
            obtain ⟨notAdded, unscheduled, unmarked⟩ := LeftBy.asked_iff keeps |>.mp asked
            exact .dir isRow notAdded isBelow unmarked unscheduled directory.isRow directory.notAdded
              (directory.asked_iff.mp ownAsked) fun other named listed =>
                (ih other named listed).mp (itemsAsked other named listed)
      · intro restorable
        cases restorable with
        | released _ isItem isAdded =>
            exact absurd ((itemRow_unique isItem isAdded).2 _ _ isBelow directory.isRow) directory.notAdded
        | file _ _ noBelow => exact nomatch noBelow.symm.trans isBelow
        | dir isAgain notAdded belowAgain unmarked unscheduled isOwn _ ownUnmarked itemsRestorable =>
            cases isRow.symm.trans isAgain
            cases isBelow.symm.trans belowAgain
            cases directory.isRow.symm.trans isOwn
            exact .dir isRow isBelow isNow belowNow
              (LeftBy.asked_iff keeps |>.mpr ⟨notAdded, unscheduled, unmarked⟩) noConflict
              (directory.asked_iff.mpr ownUnmarked) fun other named listed =>
                (ih other named listed).mpr (itemsRestorable other named listed)

theorem TreeReverted.asked_iff (reverted : TreeReverted translator format whatIsLeft path own ownNow) :
    TreeReverted translator format whatIsAsked path own ownNow ↔ TreeRestorable format own := by
  obtain ⟨row, now, directory⟩ := reverted.directory
  constructor
  · rintro ⟨⟨again, nowAgain, asked⟩, items⟩
    cases directory.isRow.symm.trans asked.isRow
    cases directory.stable.isRow.symm.trans asked.stable.isRow
    constructor
    · intro other isOther
      cases directory.isRow.symm.trans isOther
      exact directory.asked_iff.mp asked
    · exact fun other named listed =>
        (reverted.items other named listed).asked_iff.mp (items other named listed)
  · rintro ⟨unmarked, items⟩
    exact ⟨⟨row, now, directory.asked_iff.mpr (unmarked row directory.isRow)⟩,
      fun other named listed => (reverted.items other named listed).asked_iff.mpr (items other named listed)⟩

end Outcomes

section Theorem

variable {translator : Translator} {format : TimeFormat} {order : EntriesOrder} {clock : Clock}
  {fuel : Nat} {path name : Bytes} {dir own after : WcDir}

/-- What is not versioned any more cannot be reverted. -/
theorem svnWcRevert_gone (noRow : dir.row format name = none) (noBelow : dir.below name = none) :
    ∃ error, svnWcRevert translator format order clock fuel path dir name = .error error := by
  cases reverted : svnWcRevert translator format order clock fuel path dir name with
  | error error => exact ⟨error, rfl⟩
  | ok after =>
      cases fuel with
      | zero => cases reverted
      | succ fuel =>
          obtain ⟨entry, root, isEntry, -⟩ := svnWcRevert_cases reverted
          rw [svnWcEntry_noDir (noDir_of_svnWcEntry noBelow isEntry)] at isEntry
          obtain ⟨entries, read, ends⟩ := bind_eq_ok isEntry
          rw [WcDir.row, listed_of_read read, rowIn, Except.ok.inj ends] at noRow
          cases noRow

theorem restores_iff (sound : dir.Sound format) (item : WellKeptItem format dir name)
    (reverted : svnWcRevert translator format order clock fuel path dir name = .ok after) :
    Restores translator format order clock fuel path dir after name ↔ Restorable format dir name := by
  have spec := svnWcRevert_spec fuel path dir name after sound item reverted
  have again : svnWcRevert translator format order clock fuel path after name = .ok after ∨
      after.row format name = none ∧
        ∃ error, svnWcRevert translator format order clock fuel path after name = .error error := by
    by_cases noRow : after.row format name = none
    · refine .inr ⟨noRow, svnWcRevert_gone noRow ?_⟩
      cases spec.reverted with
      | released _ _ _ _ _ noBelow => exact noBelow
      | file _ _ _ isNow => exact nomatch noRow.symm.trans isNow
      | dir _ _ isNow => exact nomatch noRow.symm.trans isNow
    · exact .inl (svnWcRevert_stable fuel spec.kept.sound (spec.again noRow))
  rw [← spec.reverted.asked_iff]
  exact ⟨Restores.reverted, fun asked => ⟨asked, again⟩⟩

theorem restoresRoot_iff (root : WellKeptRoot format dir name own)
    (reverted : svnWcRevert translator format order clock fuel path dir name = .ok after) :
    RestoresRoot translator format order clock fuel path dir name own after ↔ TreeRestorable format own := by
  cases fuel with
  | zero => cases reverted
  | succ fuel =>
      obtain ⟨entry, isRoot, isEntry, isRooted, way⟩ := svnWcRevert_cases reverted
      have sound := root.wellKept.ok.sound
      rw [svnWcEntry_below root.isBelow, sound.read] at isEntry
      have found : (own.listed format).lookup thisDirName = some entry := Except.ok.inj isEntry
      obtain rfl : isRoot = true := Except.ok.inj (isRooted.symm.trans (root.isRoot entry found))
      have notAdded : entry.schedule ≠ .add := root.notAdded entry.row (by rw [WcDir.row, rowIn, found]; rfl)
      cases way with
      | addedDir _ isAdded => exact absurd isAdded notAdded
      | addedFile _ isAdded => exact absurd isAdded notAdded
      | file _ _ notRoot => cases notRoot
      | dir _ _ reverted =>
          obtain ⟨ownNow, propsChanged, changed, file, rfl, tree, stable, parent⟩ :=
            revertDir_spec (svnWcRevert_spec fuel) root.isBelow root.wellKept found notAdded reverted
          rw [if_pos rfl, ite_self] at parent
          cases parent
          have belowNow := below_withBelow root.isBelow ownNow dir.adm.entries
          obtain ⟨now, isStable⟩ := stable.directory
          have again := @svnWcRevert_below translator format order clock path name
            (dir.withBelow name ownNow) ownNow fuel now belowNow stable.sound isStable
            (fun entryNow foundNow => ⟨true, ?_⟩)
            (fun other named listed => svnWcRevert_stable fuel stable.sound (stable.items other named listed))
          · rw [← tree.asked_iff]
            constructor
            · rintro ⟨⟨ownAfter, same, asked⟩, -⟩
              have isAfter : (dir.withBelow name ownAfter).below name = some ownNow := same ▸ belowNow
              cases (below_withBelow root.isBelow ownAfter dir.adm.entries).symm.trans isAfter
              exact asked
            · exact fun asked => ⟨⟨ownNow, rfl, asked⟩, again⟩
          · have sameUrl : entryNow.url = entry.url := by
              rw [← thisUrl_of_found foundNow, stable.url, thisUrl_of_found found]
            rw [← isRooted, svnWcIsWcRoot, svnWcIsWcRoot, sameUrl]
            rfl

/-- For every working copy, every order of the entries, and every time at which files are written. -/
theorem svnWcRevert_restores_iff (translator : Translator) (format : TimeFormat) (order : EntriesOrder)
    (clock : Clock) (fuel : Nat) (path : Bytes) (dir : WcDir) (name : Bytes) (after : WcDir)
    (reverted : svnWcRevert translator format order clock fuel path dir name = .ok after) :
    (dir.Sound format → WellKeptItem format dir name →
      (Restores translator format order clock fuel path dir after name ↔ Restorable format dir name)) ∧
    ∀ own, WellKeptRoot format dir name own →
      (RestoresRoot translator format order clock fuel path dir name own after ↔ TreeRestorable format own) :=
  ⟨fun sound item => restores_iff sound item reverted, fun _ root => restoresRoot_iff root reverted⟩

def evenClock : Clock where
  text := fun _ => 6
  props := fun _ => 6
  text_ne_zero := fun _ => by decide
  props_ne_zero := fun _ => by decide

/-- The file `f` is modified and scheduled for deletion, and the file `g` belongs to its conflict. -/
def deletedDir : WcDir :=
  ⟨emptyAdm [directoryAtts, { fileAtts with schedule := some deleteStr, conflictOld := some [103] }],
    [([102], .file ⟨[98], 5⟩), ([103], .file ⟨[99], 5⟩)]⟩

theorem deletedDir_sound : deletedDir.Sound decimalTime := by
  refine ⟨rfl, fun thisDir found => ?_⟩
  cases found
  decide

theorem deletedDir_item : WellKeptItem decimalTime deletedDir [102] := by
  have noBelow : deletedDir.below [102] = none := rfl
  refine ⟨by decide, by rw [show deletedDir.row decimalTime [102] = some _ from rfl]; nofun,
    ⟨?_, fun _ _ _ => noBelow, fun _ _ _ isBelow => nomatch noBelow.symm.trans isBelow⟩,
    fun _ _ isBelow => nomatch noBelow.symm.trans isBelow⟩
  rintro file ⟨row, isRow, mentioned⟩
  cases isRow
  rcases mentioned with mentioned | mentioned | mentioned | mentioned
  · cases mentioned
    rfl
  all_goals cases mentioned

theorem deletedDir_is_restored :
    ∃ after, svnWcRevert plainTranslator decimalTime hashOrder evenClock 1 [] deletedDir [102] = .ok after ∧
      Restores plainTranslator decimalTime hashOrder evenClock 1 [] deletedDir after [102] := by
  refine ⟨_, rfl, ((svnWcRevert_restores_iff plainTranslator decimalTime hashOrder evenClock 1 [] deletedDir
    [102] _ rfl).1 deletedDir_sound deletedDir_item).mpr ?_⟩
  refine .file rfl nofun rfl ?_
  rintro (copied | copyfromUrl | copyfromRev)
  · cases copied
  · exact copyfromUrl rfl
  · exact copyfromRev rfl

/-- The file `f` was deleted, and a copy of `g` was put in its place. -/
def replacedDir : WcDir :=
  ⟨emptyAdm [directoryAtts, { fileAtts with
      schedule := some replaceStr
      copied := some trueStr
      copyfromUrl := some [117, 47, 103]
      copyfromRev := some [51] }],
    [([102], .file ⟨[97], 5⟩)]⟩

theorem replaced_file_stays_a_copy :
    ∃ after, svnWcRevert plainTranslator decimalTime hashOrder evenClock 1 [] replacedDir [102] = .ok after ∧
      (∃ now, after.row decimalTime [102] = some now ∧ now.schedule = .normal ∧ now.copied = true ∧
        now.copyfromUrl = some [117, 47, 103]) ∧
      ¬ Restores plainTranslator decimalTime hashOrder evenClock 1 [] replacedDir after [102] := by
  refine ⟨_, rfl, ⟨_, rfl, rfl, rfl, rfl⟩, fun restores => ?_⟩
  cases restores.reverted with
  | released isRow _ isAdded goes =>
      cases isRow
      cases goes
  | file _ _ _ isNow asked =>
      cases isNow
      exact asked.unmarked (.inl rfl)
  | dir _ isBelow => cases isBelow

end Theorem

end Subversion.Wc
