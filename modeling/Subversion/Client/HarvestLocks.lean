/-
This file models the search over a list of targets, and shows when the directories of its items are locked.
-/

import Subversion.Client.HarvestReports

namespace Subversion.Client

open Delta Subr Wc

section Targets

/-- What the working copy answers about a path: its entry, with what is below it, and whether it is a
root. -/
structure WorkingCopy where
  entry : Bytes → Except SvnError (Option Node)
  isWcRoot : Bytes → Except SvnError Bool

variable (makeLock : Bytes → Making) (copy : WorkingCopy) (parentDir : Bytes)

def parentOf (target : Bytes) : Bytes :=
  if isEmptyPath (splitPath target).1 then [46] else (splitPath target).1

/-- The url of the parent with the name. -/
def manufacturedUrl (target : Bytes) (entry : Entry) : Except SvnError Bytes :=
  if ¬ scheduledAdd entry then
    .error ⟨.wcCorrupt, "Entry for `" ++ text target ++ "' has no URL, yet is not scheduled for addition"⟩
  else do
    if ← copy.isWcRoot target then
      .error ⟨.illegalTarget, "Entry for `" ++ text target ++
        "' has no URL, and none can be derived for it"⟩
    else
      match ← copy.entry (parentOf target) with
      | none =>
          .error ⟨.wcCorrupt, "Entry for `" ++ text target ++
            "' has no URL, and its parent directory doesnot appear to be under version control"⟩
      | some parent =>
          if scheduledAdd parent.found.entry then
            .error ⟨.illegalTarget, "`" ++ text target ++
              "' is the child an unversioned (or not-yet-versioned)directory.  " ++
              "Try committing the directory itself"⟩
          else
            match parent.found.entry.url with
            | none => .error SvnError.undefinedBehaviour
            | some url => .ok (addComponent url (splitPath target).2)

def targetUrl (target : Bytes) (entry : Entry) : Except SvnError Bytes :=
  match entry.url with
  | some url => .ok url
  | none => manufacturedUrl copy target entry

/-- The place where the search for a target begins. -/
def targetStart (target : Bytes) : Except SvnError (Context × Node) := do
  match ← copy.entry target with
  | none => .error ⟨.entryNotFound, text target⟩
  | some node =>
      let url ← targetUrl copy target node.found.entry
      if node.found.entry.copied ∧ node.found.entry.schedule = .normal then
        .error ⟨.illegalTarget, "Entry for `" ++ text target ++
          "' is marked as `copied' but is not itself scheduled for addition.  " ++
          "Perhaps you're committing a target that this inside of an unversioned " ++
          "(or not-yet-versioned) directory?"⟩
      else .ok (⟨target, url, none, false⟩, node)

def harvestTarget (harvest : Harvest) (target : Bytes) : Except SvnError Harvest := do
  let start ← targetStart copy target
  harvestCommittables makeLock false harvest start.1 start.2

/-- The buffer is chopped back to the length of the parent directory. A shorter one is chopped to
nothing. -/
def resetTarget (target : Bytes) : Bytes :=
  if target.length < parentDir.length then [] else target.take parentDir.length

/-- The loop over the relative paths, with the buffer for the target. -/
def harvestTargets (buffer : Bytes) (harvest : Harvest) : List Bytes → Except SvnError Harvest
  | [] => .ok harvest
  | relative :: rest => do
      let harvest ← harvestTarget makeLock copy harvest (addComponent buffer relative)
      harvestTargets (resetTarget parentDir (addComponent buffer relative)) harvest rest

/-- Without relative paths, the parent directory is the target. -/
def svnClientHarvestCommittables (targets : List Bytes) : Except SvnError Harvest :=
  if targets = [] then harvestTarget makeLock copy ⟨[], []⟩ parentDir
  else harvestTargets makeLock copy parentDir parentDir ⟨[], []⟩ targets

def joinedTargets (buffer : Bytes) : List Bytes → List Bytes
  | [] => []
  | relative :: rest =>
      addComponent buffer relative ::
        joinedTargets (resetTarget parentDir (addComponent buffer relative)) rest

def targetPaths (targets : List Bytes) : List Bytes :=
  if targets = [] then [parentDir] else joinedTargets parentDir parentDir targets

end Targets

section Requirement

/-- The directory of every item was locked by the call, and it is recorded. -/
def LocksHeld (makeLock : Bytes → Making) (harvest : Harvest) : Prop :=
  ∀ item ∈ harvest.committables, makeLock (holder item) = .made ∧ holder item ∈ harvest.lockedDirs

/-- A call that succeeds has locked what it reports. -/
def KeepsLocks (makeLock : Bytes → Making) (copy : WorkingCopy) (parentDir : Bytes) (targets : List Bytes) :
    Prop :=
  ∀ harvest, svnClientHarvestCommittables makeLock copy parentDir targets = .ok harvest →
    LocksHeld makeLock harvest

/-- The checks that the search makes at a place succeed. -/
structure Checked (place : Context × Found) : Prop where
  kind : place.2.entry.kind = .file ∨ place.2.entry.kind = .dir
  conflicted : place.2.status.conflicted = .ok (false, false)
  mods : ∃ flags, localMods place.2 (changeFlags false place.2.effective place.1.addsOnly) = .ok flags

def placeDir (place : Context × Found) : Bytes :=
  if place.2.effective.kind = .dir then place.1.path else removeComponent place.1.path

variable (copy : WorkingCopy) (parentDir : Bytes) (targets : List Bytes)

/-- The targets are versioned, and the checks succeed wherever the search comes to. -/
def ChecksPass : Prop :=
  ∀ target ∈ targetPaths parentDir targets, ∃ start, targetStart copy target = .ok start ∧
    ∀ place ∈ searched false start.1 start.2, Checked place

/-- The directory of a path that has to be committed. -/
def NeedsLock (dir : Bytes) : Prop :=
  ∃ target ∈ targetPaths parentDir targets, ∃ start, targetStart copy target = .ok start ∧
    ∃ place ∈ searched false start.1 start.2, NeedsCommit place.1 place.2 ∧ placeDir place = dir

end Requirement

section Recorded

variable {makeLock : Bytes → Making}

/-- A directory is recorded unless there is a lock already. -/
theorem mem_addCommittable_iff {harvest : Harvest} {item : CommitItem} {dir : Bytes} :
    dir ∈ (addCommittable makeLock harvest item).lockedDirs ↔
      dir ∈ harvest.lockedDirs ∨ holder item = dir ∧ makeLock dir ≠ .present := by
  rw [addCommittable, lockDir, wcLock]
  by_cases recorded : holder item ∈ harvest.lockedDirs
  · rw [if_pos recorded]
    constructor
    · exact .inl
    · rintro (member | ⟨rfl, -⟩)
      · exact member
      · exact recorded
  · rw [if_neg recorded]
    cases making : makeLock (holder item) with
    | present =>
        constructor
        · exact .inl
        · rintro (member | ⟨rfl, absent⟩)
          · exact member
          · exact absurd making absent
    | made | failed =>
        have absent : makeLock (holder item) ≠ .present := by
          rw [making]
          decide
        show dir ∈ holder item :: harvest.lockedDirs ↔ _
        rw [List.mem_cons]
        constructor
        · rintro (rfl | member)
          · exact .inr ⟨rfl, absent⟩
          · exact .inl member
        · rintro (member | ⟨rfl, -⟩)
          · exact .inr member
          · exact .inl rfl

theorem mem_lockedDirs_iff (items : List CommitItem) {dir : Bytes} :
    ∀ {harvest}, dir ∈ (items.foldl (addCommittable makeLock) harvest).lockedDirs ↔
      dir ∈ harvest.lockedDirs ∨ (∃ item ∈ items, holder item = dir) ∧ makeLock dir ≠ .present := by
  induction items with
  | nil => simp
  | cons item items ih =>
      intro harvest
      rw [List.foldl_cons, ih, mem_addCommittable_iff, or_assoc, ← or_and_right]
      simp only [List.mem_cons, exists_eq_or_imp]

/-- All directories are recorded just if none of them is locked by another process. -/
theorem locksHeld_iff (items : List CommitItem) :
    LocksHeld makeLock (items.foldl (addCommittable makeLock) ⟨[], []⟩) ↔
      ∀ item ∈ items, makeLock (holder item) = .made := by
  rw [LocksHeld, foldl_addCommittable, List.nil_append]
  constructor
  · exact fun held item member => (held item member).1
  · intro made item member
    refine ⟨made item member, (mem_lockedDirs_iff items).mpr (.inr ⟨⟨item, member, rfl⟩, ?_⟩)⟩
    rw [made item member]
    decide

end Recorded

section Places

variable {context : Context} {found : Found} {place : Context × Found}

/-- At a place where the checks succeed, there is an item with the flags that were found. -/
theorem harvestItem_of_checked (checked : Checked place) :
    ∃ item, harvestItem false place.1 place.2 = .ok item ∧ holder item = placeDir place ∧
      localMods place.2 (changeFlags false place.2.effective place.1.addsOnly) = .ok item.stateFlags := by
  obtain ⟨flags, mods⟩ := checked.mods
  exact ⟨_, harvestItem_of_mods checked.kind checked.conflicted mods, rfl, mods⟩

theorem checked_of_harvestItem {item : CommitItem} (made : harvestItem false place.1 place.2 = .ok item) :
    Checked place := by
  rw [harvestItem] at made
  split at made
  · cases made
  · next known =>
      obtain ⟨conflicts, conflicted, made⟩ := bind_eq_ok made
      split at made
      · cases made
      · next clean =>
          obtain ⟨flags, mods, -⟩ := bind_eq_ok made
          obtain ⟨text, props⟩ := conflicts
          rw [Bool.or_eq_true, not_or, Bool.not_eq_true, Bool.not_eq_true] at clean
          obtain ⟨rfl, rfl⟩ := clean
          refine ⟨?_, conflicted, flags, mods⟩
          by_contra neither
          exact known (not_or.mp neither)

theorem exists_harvestItem_iff : (∃ item, harvestItem false place.1 place.2 = .ok item) ↔ Checked place := by
  constructor
  · rintro ⟨item, made⟩
    exact checked_of_harvestItem made
  · intro checked
    obtain ⟨item, made, -⟩ := harvestItem_of_checked checked
    exact ⟨item, made⟩

/-- The items are those of the places that need a commit. -/
theorem itemAt_isSome_iff (checked : Checked place) :
    (∃ item, itemAt false place = some item) ↔ NeedsCommit place.1 place.2 := by
  obtain ⟨item, made, -, mods⟩ := harvestItem_of_checked checked
  rw [← needsCommit_iff mods, itemAt, made]
  by_cases nothing : item.stateFlags = noStateFlags <;> simp [nothing]

theorem holder_itemAt (checked : Checked place) {item : CommitItem}
    (isItem : itemAt false place = some item) : holder item = placeDir place := by
  obtain ⟨made, isMade, dir, -⟩ := harvestItem_of_checked checked
  rw [itemAt, isMade] at isItem
  dsimp only at isItem
  split at isItem
  · cases isItem
  · cases isItem
    exact dir

end Places

section Targets

variable {makeLock : Bytes → Making} {copy : WorkingCopy} {parentDir : Bytes} {targets : List Bytes}

/-- The items for a target. -/
def targetItems (copy : WorkingCopy) (target : Bytes) : List CommitItem :=
  match targetStart copy target with
  | .ok start => (searched false start.1 start.2).filterMap (itemAt false)
  | .error _ => []

theorem harvestTargets_eq (relatives : List Bytes) : ∀ {buffer harvest},
    harvestTargets makeLock copy parentDir buffer harvest relatives =
      (joinedTargets parentDir buffer relatives).foldlM (harvestTarget makeLock copy) harvest := by
  induction relatives with
  | nil => exact rfl
  | cons relative relatives ih =>
      intro buffer harvest
      rw [harvestTargets, joinedTargets, List.foldlM_cons]
      congr 1
      funext harvest
      exact ih

/-- The call is a fold over the paths of the targets. -/
theorem svnClientHarvestCommittables_eq :
    svnClientHarvestCommittables makeLock copy parentDir targets =
      (targetPaths parentDir targets).foldlM (harvestTarget makeLock copy) ⟨[], []⟩ := by
  rw [svnClientHarvestCommittables, targetPaths]
  by_cases none : targets = []
  · rw [if_pos none, if_pos none, List.foldlM_cons]
    exact (bind_pure _).symm
  · rw [if_neg none, if_neg none]
    exact harvestTargets_eq targets

theorem harvestTarget_eq_ok_iff (harvest : Harvest) (target : Bytes) (after : Harvest) :
    harvestTarget makeLock copy harvest target = .ok after ↔
      (∃ start, targetStart copy target = .ok start ∧
        ∀ place ∈ searched false start.1 start.2, Checked place) ∧
        after = (targetItems copy target).foldl (addCommittable makeLock) harvest := by
  rw [harvestTarget, targetItems]
  cases starts : targetStart copy target with
  | error error =>
      constructor
      · intro impossible
        cases impossible
      · rintro ⟨⟨start, impossible, -⟩, -⟩
        cases impossible
  | ok start =>
      change harvestCommittables makeLock false harvest start.1 start.2 = .ok after ↔ _
      rw [harvestCommittables_eq, foldlM_searchItem_eq_ok_iff]
      simp only [exists_harvestItem_iff, Except.ok.injEq, exists_eq_left']

/-- Whether the call succeeds does not depend on the locks. -/
theorem svnClientHarvestCommittables_eq_ok_iff {harvest : Harvest} :
    svnClientHarvestCommittables makeLock copy parentDir targets = .ok harvest ↔
      ChecksPass copy parentDir targets ∧
        harvest = ((targetPaths parentDir targets).flatMap (targetItems copy)).foldl
          (addCommittable makeLock) ⟨[], []⟩ := by
  rw [svnClientHarvestCommittables_eq, GuardedRuns.foldlM_eq_ok_iff harvestTarget_eq_ok_iff,
    List.foldl_flatMap]
  rfl

/-- Where all checks succeed, a lock is needed for the directories of the items. -/
theorem needsLock_iff (checks : ChecksPass copy parentDir targets) {dir : Bytes} :
    NeedsLock copy parentDir targets dir ↔
      ∃ item ∈ (targetPaths parentDir targets).flatMap (targetItems copy), holder item = dir := by
  constructor
  · rintro ⟨target, isTarget, start, starts, place, isPlace, needs, isDir⟩
    obtain ⟨other, same, checked⟩ := checks target isTarget
    cases starts.symm.trans same
    obtain ⟨item, isItem⟩ := (itemAt_isSome_iff (checked place isPlace)).mpr needs
    refine ⟨item, List.mem_flatMap.mpr ⟨target, isTarget, ?_⟩,
      (holder_itemAt (checked place isPlace) isItem).trans isDir⟩
    rw [targetItems, starts]
    exact List.mem_filterMap.mpr ⟨place, isPlace, isItem⟩
  · rintro ⟨item, member, isDir⟩
    obtain ⟨target, isTarget, member⟩ := List.mem_flatMap.mp member
    obtain ⟨start, starts, checked⟩ := checks target isTarget
    rw [targetItems, starts] at member
    obtain ⟨place, isPlace, isItem⟩ := List.mem_filterMap.mp member
    exact ⟨target, isTarget, start, starts, place, isPlace,
      (itemAt_isSome_iff (checked place isPlace)).mp ⟨item, isItem⟩,
      (holder_itemAt (checked place isPlace) isItem).symm.trans isDir⟩

/-- The call keeps its promise just if each directory that needs a lock can be locked. -/
theorem svnClientHarvestCommittables_keepsLocks_iff (makeLock : Bytes → Making) (copy : WorkingCopy)
    (parentDir : Bytes) (targets : List Bytes) :
    KeepsLocks makeLock copy parentDir targets ↔
      (ChecksPass copy parentDir targets → ∀ dir, NeedsLock copy parentDir targets dir →
        makeLock dir = .made) := by
  constructor
  · intro keeps checks dir needs
    have held := keeps _ (svnClientHarvestCommittables_eq_ok_iff.mpr ⟨checks, rfl⟩)
    obtain ⟨item, member, rfl⟩ := (needsLock_iff checks).mp needs
    exact (locksHeld_iff _).mp held item member
  · intro made harvest success
    obtain ⟨checks, rfl⟩ := svnClientHarvestCommittables_eq_ok_iff.mp success
    rw [locksHeld_iff]
    intro item member
    exact made checks _ ((needsLock_iff checks).mpr ⟨item, member, rfl⟩)

end Targets

section Unlocked

/-- A working copy of one directory with a modified file. -/
def modifiedCopy : WorkingCopy where
  entry := fun path =>
    .ok (if path = [100] then
      some (oneFile { plainDir .normal with entry := (plainDir .normal).effective }
        (plainFile [102] .normal true))
    else none)
  isWcRoot := fun path => .ok (path = [100])

/-- The file is reported when another process has locked its directory, and when no lock can be made
there. -/
theorem modified_file_reported_without_lock :
    ¬ KeepsLocks (fun _ => .present) modifiedCopy [100] [] ∧
      ¬ KeepsLocks (fun _ => .failed) modifiedCopy [100] [] := by
  constructor
  · intro keeps
    have held := keeps _ rfl
    cases (held _ List.mem_cons_self).1
  · intro keeps
    have held := keeps _ rfl
    cases (held _ List.mem_cons_self).1

end Unlocked

end Subversion.Client
