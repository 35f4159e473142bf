/-
This file models the search of a working copy for what there is to commit.
-/

import Subversion.Client.Commit
import Subversion.Lib.GuardedRuns

namespace Subversion.Client

open Delta Subr Wc

/-- What the checks of the working copy answer about one path. -/
structure Status where
  conflicted : Except SvnError (Bool × Bool)
  textModified : Except SvnError Bool
  propsModified : Except SvnError Bool

/-- An entry in the list of its parent directory. For a directory of which the own list can be read,
there is that directory's own entry, too. -/
structure Found where
  entry : Entry
  thisDir : Option Entry
  status : Status

mutual

/-- A path of the working copy with what is below it. -/
inductive Node where
  | mk (found : Found) (children : Children)

/-- The entries of a directory other than its own, in the order in which the hash gives them. -/
inductive Children where
  | nil
  | cons (name : Bytes) (node : Node) (rest : Children)

end

def Node.found : Node → Found
  | .mk found _ => found

/-- The attempt to make the file that is the lock of a directory. -/
inductive Making where
  | made
  | present
  | failed
  deriving DecidableEq

/-- The items of the commit, and the directories that were locked for them. -/
structure Harvest where
  committables : List CommitItem
  lockedDirs : List Bytes

/-- What the parent passes down. -/
structure Context where
  path : Bytes
  url : Bytes
  copyfromUrl : Option Bytes
  addsOnly : Bool

section Locks

variable (makeLock : Bytes → Making)

/-- Only a lock that is there already is an error. -/
def wcLock (path : Bytes) : Except SvnError Unit :=
  match makeLock path with
  | .present => .error ⟨.wcLocked, "working copy locked: " ++ text path⟩
  | .made | .failed => .ok ()

def lockDir (lockedDirs : List Bytes) (dir : Bytes) : Except SvnError (List Bytes) :=
  if dir ∈ lockedDirs then .ok lockedDirs
  else
    match wcLock makeLock dir with
    | .error error => .error error
    | .ok () => .ok (dir :: lockedDirs)

/-- The directory itself, or the one that holds the file. -/
def holder (item : CommitItem) : Bytes :=
  if item.kind = .dir then item.path else removeComponent item.path

/-- The result of the lock is dropped. -/
def addCommittable (harvest : Harvest) (item : CommitItem) : Harvest where
  committables := harvest.committables ++ [item]
  lockedDirs :=
    match lockDir makeLock harvest.lockedDirs (holder item) with
    | .ok lockedDirs => lockedDirs
    | .error _ => harvest.lockedDirs

end Locks

section Item

variable (copyMode : Bool) (context : Context) (found : Found)

/-- The directory's own entry, if it can be read. -/
def Found.effective : Entry :=
  if found.entry.kind = .dir then found.thisDir.getD found.entry else found.entry

def Found.hasEntries : Bool := found.entry.kind = .dir && found.thisDir.isSome

def scheduledAdd (entry : Entry) : Bool := entry.schedule = .add ∨ entry.schedule = .replace

/-- The case of an entry of a copied subtree. -/
def copiedAdd (entry : Entry) : Bool := (entry.copied || copyMode) && entry.schedule = .normal

/-- The state of an item before the modifications are looked for. -/
def changeFlags (entry : Entry) (addsOnly : Bool) : StateFlags where
  add := scheduledAdd entry || copiedAdd copyMode entry
  delete := !addsOnly && (entry.schedule = .delete ∨ entry.schedule = .replace)
  textMods := false
  propMods := false
  isCopy := (scheduledAdd entry && entry.copyfromUrl.isSome) || copiedAdd copyMode entry

def itemUrl : Bytes := if copyMode then context.url else found.effective.url.getD context.url

def itemCopyfrom : Option Bytes :=
  if copiedAdd copyMode found.effective then
    if copyMode then found.effective.url else context.copyfromUrl
  else if scheduledAdd found.effective then found.effective.copyfromUrl
  else none

/-- The children of an addition without history, and those of a copied directory, are only added. -/
def itemAddsOnly : Bool :=
  if copiedAdd copyMode found.effective then true
  else if scheduledAdd found.effective then found.effective.copyfromUrl.isNone
  else context.addsOnly

/-- Regular additions of files have text modifications, and for copies they are tested. A deletion looks
for no modifications. -/
def localMods (flags : StateFlags) : Except SvnError StateFlags :=
  if flags.add = true then do
    let propMods ← found.status.propsModified
    let textMods ← if found.effective.kind = .file then
        if flags.isCopy then found.status.textModified else .ok true
      else .ok false
    return { flags with textMods := textMods, propMods := propMods }
  else if flags.delete = false then do
    let textMods ← if found.effective.kind = .file then found.status.textModified else .ok false
    let propMods ← found.status.propsModified
    return { flags with textMods := textMods, propMods := propMods }
  else .ok flags

/-- The item for a path, which may have nothing to commit. -/
def harvestItem : Except SvnError CommitItem := do
  if found.entry.kind ≠ .file ∧ found.entry.kind ≠ .dir then
    .error ⟨.unknownNodeKind, text context.path⟩
  else
    let conflicts ← found.status.conflicted
    if conflicts.1 || conflicts.2 then
      .error ⟨.wcFoundConflict, "Aborting commit: '" ++ text context.path ++ "' remains in conflict."⟩
    else
      let flags ← localMods found (changeFlags copyMode found.effective context.addsOnly)
      let copyfrom := itemCopyfrom copyMode context found
      return {
        path := context.path
        kind := found.effective.kind
        url := itemUrl copyMode context found
        revision := if copyfrom.isSome then found.effective.copyfromRev else found.effective.revision
        copyfromUrl := copyfrom
        stateFlags := flags }

/-- A directory that is being deleted is not entered, unless it is replaced. -/
def entersEntries : Bool :=
  found.hasEntries && (!(changeFlags copyMode found.effective context.addsOnly).delete ||
    (changeFlags copyMode found.effective context.addsOnly).add)

/-- The buffers that the loop over the entries extends and chops. -/
structure Buffers where
  fullPath : Bytes
  thisUrl : Bytes
  thisCfUrl : Option Bytes

def chop (count : Nat) (bytes : Bytes) : Bytes := bytes.take (bytes.length - count)

def itemBuffers : Buffers where
  fullPath := context.path
  thisUrl := itemUrl copyMode context found
  thisCfUrl := itemCopyfrom copyMode context found

def usesUrl (child : Found) : Bool := child.entry.url.isNone || copyMode

def childContext (buffers : Buffers) (addsOnly : Bool) (name : Bytes) (child : Found) : Context where
  path := addComponent buffers.fullPath name
  url :=
    match child.entry.url with
    | some url => if copyMode then addComponent buffers.thisUrl name else url
    | none => addComponent buffers.thisUrl name
  copyfromUrl := buffers.thisCfUrl.map (addComponent · name)
  addsOnly := addsOnly

def chopBuffers (buffers : Buffers) (name : Bytes) (child : Found) : Buffers where
  fullPath := chop (name.length + 1) (addComponent buffers.fullPath name)
  thisUrl :=
    if usesUrl copyMode child then chop (name.length + 1) (addComponent buffers.thisUrl name)
    else buffers.thisUrl
  thisCfUrl := buffers.thisCfUrl.map fun url => chop (name.length + 1) (addComponent url name)

end Item

section Walk

variable (makeLock : Bytes → Making) (copyMode : Bool)

mutual

def harvestCommittables (harvest : Harvest) (context : Context) : Node → Except SvnError Harvest
  | .mk found children => do
      let item ← harvestItem copyMode context found
      let harvest := if item.stateFlags = noStateFlags then harvest else addCommittable makeLock harvest item
      if entersEntries copyMode context found then
        harvestChildren harvest (itemBuffers copyMode context found) (itemAddsOnly copyMode context found)
          children
      else .ok harvest

/-- The loop over the entries of a directory. -/
def harvestChildren (harvest : Harvest) (buffers : Buffers) (addsOnly : Bool) :
    Children → Except SvnError Harvest
  | .nil => .ok harvest
  | .cons name node rest => do
      let harvest ← harvestCommittables harvest (childContext copyMode buffers addsOnly name node.found) node
      harvestChildren harvest (chopBuffers copyMode buffers name node.found) addsOnly rest

end

end Walk

section Searched

variable (copyMode : Bool)

mutual

/-- The paths that the search comes to, in its order, with what is passed down to them. -/
def searched (context : Context) : Node → List (Context × Found)
  | .mk found children =>
      (context, found) ::
        if entersEntries copyMode context found then
          searchedBelow (itemBuffers copyMode context found) (itemAddsOnly copyMode context found) children
        else []

def searchedBelow (buffers : Buffers) (addsOnly : Bool) : Children → List (Context × Found)
  | .nil => []
  | .cons name node rest =>
      searched (childContext copyMode buffers addsOnly name node.found) node ++
        searchedBelow (chopBuffers copyMode buffers name node.found) addsOnly rest

end

def searchItem (makeLock : Bytes → Making) (harvest : Harvest) (place : Context × Found) :
    Except SvnError Harvest := do
  let item ← harvestItem copyMode place.1 place.2
  return if item.stateFlags = noStateFlags then harvest else addCommittable makeLock harvest item

variable {copyMode} {makeLock : Bytes → Making}

mutual

/-- The search is a fold over the paths that it comes to. -/
theorem harvestCommittables_eq (harvest : Harvest) (context : Context) (node : Node) :
    harvestCommittables makeLock copyMode harvest context node =
      (searched copyMode context node).foldlM (searchItem copyMode makeLock) harvest := by
  cases node with
  | mk found children =>
      rw [harvestCommittables, searched, List.foldlM_cons, searchItem]
      cases harvestItem copyMode context found with
      | error error => rfl
      | ok item =>
          by_cases inside : entersEntries copyMode context found = true
          · simp only [inside, if_true]
            exact harvestChildren_eq _ _ _ children
          · simp only [inside]
            rfl

theorem harvestChildren_eq (harvest : Harvest) (buffers : Buffers) (addsOnly : Bool) (children : Children) :
    harvestChildren makeLock copyMode harvest buffers addsOnly children =
      (searchedBelow copyMode buffers addsOnly children).foldlM (searchItem copyMode makeLock) harvest := by
  cases children with
  | nil => rfl
  | cons name node rest =>
      rw [harvestChildren, searchedBelow, List.foldlM_append, harvestCommittables_eq]
      congr 1
      funext harvest
      exact harvestChildren_eq _ _ _ rest

end

end Searched

section Items

/-- The item for a place, if there is something to commit. -/
def itemAt (copyMode : Bool) (place : Context × Found) : Option CommitItem :=
  match harvestItem copyMode place.1 place.2 with
  | .ok item => if item.stateFlags = noStateFlags then none else some item
  | .error _ => none

variable {copyMode : Bool} {makeLock : Bytes → Making}

theorem searchItem_eq_ok_iff (harvest : Harvest) (place : Context × Found) (after : Harvest) :
    searchItem copyMode makeLock harvest place = .ok after ↔
      (∃ item, harvestItem copyMode place.1 place.2 = .ok item) ∧
        after = (itemAt copyMode place).elim harvest (addCommittable makeLock harvest) := by
  rw [searchItem, itemAt]
  cases harvestItem copyMode place.1 place.2 with
  | error error =>
      constructor
      · intro impossible
        cases impossible
      · rintro ⟨⟨item, impossible⟩, -⟩
        cases impossible
  | ok item =>
      change Except.ok (if item.stateFlags = noStateFlags then harvest
        else addCommittable makeLock harvest item) = .ok after ↔ _
      by_cases nothing : item.stateFlags = noStateFlags
      · simp [nothing, eq_comm]
      · simp [nothing, eq_comm]

/-- A search succeeds if the checks do so wherever it comes to, and it makes the items of these places. -/
theorem foldlM_searchItem_eq_ok_iff (places : List (Context × Found)) {harvest after : Harvest} :
    places.foldlM (searchItem copyMode makeLock) harvest = .ok after ↔
      (∀ place ∈ places, ∃ item, harvestItem copyMode place.1 place.2 = .ok item) ∧
        after = (places.filterMap (itemAt copyMode)).foldl (addCommittable makeLock) harvest := by
  have items : places.foldl
      (fun harvest place => (itemAt copyMode place).elim harvest (addCommittable makeLock harvest)) harvest =
        (places.filterMap (itemAt copyMode)).foldl (addCommittable makeLock) harvest := by
    rw [List.foldl_filterMap]
    congr 1
    funext harvest place
    cases itemAt copyMode place <;> rfl
  rw [GuardedRuns.foldlM_eq_ok_iff searchItem_eq_ok_iff, items]

theorem foldl_addCommittable (items : List CommitItem) :
    ∀ harvest, (items.foldl (addCommittable makeLock) harvest).committables =
      harvest.committables ++ items := by
  induction items with
  | nil => exact fun harvest => (List.append_nil _).symm
  | cons item items ih =>
      intro harvest
      rw [List.foldl_cons, ih, addCommittable, List.append_assoc, List.singleton_append]

end Items

end Subversion.Client
