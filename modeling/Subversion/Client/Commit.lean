/-
This file models how the client turns commit items into calls of a delta editor.
-/

import Mathlib.Data.List.Sort
import Subversion.Subr.PathOrder
import Subversion.Wc.Entries

namespace Subversion.Client

open Delta Subr Wc

structure StateFlags where
  add : Bool
  delete : Bool
  textMods : Bool
  propMods : Bool
  isCopy : Bool
  deriving DecidableEq, Repr

structure CommitItem where
  path : Bytes
  kind : NodeKind
  url : Bytes
  revision : Int64
  copyfromUrl : Option Bytes
  stateFlags : StateFlags
  deriving DecidableEq

/-- What the harvest looks at to choose the flags of an item. -/
structure HarvestInput where
  kind : NodeKind
  schedule : Schedule
  copied : Bool
  hasCopyfromUrl : Bool
  addsOnly : Bool
  copyMode : Bool
  textModified : Bool
  propsModified : Bool

/-- Regular additions of files have text modifications, and copies have to be tested. A deletion
looks for no modifications. -/
def harvestFlags (input : HarvestInput) : StateFlags :=
  let scheduledAdd : Bool := input.schedule = .add ∨ input.schedule = .replace
  let copiedAdd : Bool := (input.copied || input.copyMode) && input.schedule = .normal
  let delete : Bool := !input.addsOnly && (input.schedule = .delete ∨ input.schedule = .replace)
  let add := scheduledAdd || copiedAdd
  let isCopy := (scheduledAdd && input.hasCopyfromUrl) || copiedAdd
  { add := add
    delete := delete
    textMods :=
      if add then input.kind = .file && (if isCopy then input.textModified else true)
      else if !delete then input.kind = .file && input.textModified
      else false
    propMods := if add then input.propsModified else if !delete then input.propsModified else false
    isCopy := isCopy }

def noStateFlags : StateFlags := ⟨false, false, false, false, false⟩

/-- An item is made for a file or a directory, and only if there is something to commit. -/
def Harvested (item : CommitItem) : Prop :=
  ∃ input, input.kind = item.kind ∧ (item.kind = .file ∨ item.kind = .dir) ∧
    item.stateFlags = harvestFlags input ∧ item.stateFlags ≠ noStateFlags

section Condense

def onlyPropMods : StateFlags := ⟨false, false, false, true, false⟩

def sortCommitItemUrls (item₁ item₂ : CommitItem) : Prop := comparePaths item₁.url item₂.url ≤ 0

instance : DecidableRel sortCommitItemUrls := fun _ _ => inferInstanceAs (Decidable (_ ≤ _))

/-- Only a versioned directory with property modifications can be the base itself. -/
def canBeBase (item : CommitItem) : Prop := item.kind = .dir ∧ item.stateFlags = onlyPropMods

instance (item : CommitItem) : Decidable (canBeBase item) := inferInstanceAs (Decidable (_ ∧ _))

/-- An ancestor of the same length is the url itself. -/
def adjustBase (baseUrl : Bytes) (item : CommitItem) : Bytes :=
  if baseUrl.length = item.url.length ∧ ¬ canBeBase item then removeComponent baseUrl else baseUrl

/-- The loop over the items after the first one. A missing ancestor is used nevertheless. -/
def condenseLoop (baseUrl : Bytes) (lastItem : CommitItem) :
    List CommitItem → Except SvnError Bytes
  | [] => .ok baseUrl
  | item :: items =>
      if lastItem.url = item.url then
        .error ⟨.clientDuplicateCommitUrl, "Cannot commit both `" ++ text item.path ++ "' and `" ++
          text lastItem.path ++ "' as they refer to the same URL."⟩
      else
        match getLongestAncestor baseUrl item.url with
        | none => .error SvnError.undefinedBehaviour
        | some ancestor => condenseLoop (adjustBase ancestor item) item items

def chopBase (baseUrl : Bytes) (item : CommitItem) : CommitItem :=
  { item with
    url := if baseUrl.length < item.url.length then item.url.drop (baseUrl.length + 1) else [] }

/-- The base, and the items in the order of the commit with their urls below the base. -/
def condenseCommitItems (commitItems : List CommitItem) :
    Except SvnError (Bytes × List CommitItem) :=
  match commitItems.insertionSort sortCommitItemUrls with
  | [] => .error SvnError.assertion
  | first :: rest => do
      let baseUrl ← condenseLoop (adjustBase first.url first) first rest
      return (baseUrl, (first :: rest).map (chopBase baseUrl))

end Condense

section Drive

/-- Batons are numbered in the order in which the editor makes them. -/
abbrev Baton := Nat

/-- The transmission of properties and of text makes the calls for one baton. A transmission of
text closes the file. -/
inductive EditorCall where
  | openRoot (baton : Baton)
  | deleteEntry (path : Bytes) (revision : Int64) (parent : Baton)
  | addDirectory (path : Bytes) (parent : Baton) (copyfrom : Option Bytes) (revision : Int64)
      (baton : Baton)
  | openDirectory (path : Bytes) (parent : Baton) (revision : Int64) (baton : Baton)
  | closeDirectory (baton : Baton)
  | addFile (path : Bytes) (parent : Baton) (copyfrom : Option Bytes) (revision : Int64)
      (baton : Baton)
  | openFile (path : Bytes) (parent : Baton) (revision : Int64) (baton : Baton)
  | transmitPropDeltas (itemPath : Bytes) (baton : Baton)
  | closeFile (baton : Baton)
  | transmitTextDeltas (itemPath : Bytes) (fulltext : Bool) (baton : Baton)
  | closeEdit
  deriving DecidableEq

structure Drive where
  stack : List Baton
  next : Baton
  calls : List EditorCall
  fileMods : List (CommitItem × Baton)

def initStack : Drive := ⟨[0], 1, [.openRoot 0], []⟩

def Drive.call (drive : Drive) (call : EditorCall) : Drive := { drive with calls := drive.calls ++ [call] }

def pushStack (relUrl : Bytes) (copyfrom : Option Bytes) (revision : Int64) (isAdd : Bool)
    (drive : Drive) : Except SvnError Drive :=
  match drive.stack with
  | [] => .error SvnError.assertion
  | parent :: _ =>
      .ok { drive.call (if isAdd then .addDirectory relUrl parent copyfrom revision drive.next
          else .openDirectory relUrl parent revision drive.next) with
        stack := drive.next :: drive.stack
        next := drive.next + 1 }

/-- Below the bottom of the stack there is nothing to close. -/
def popStack (drive : Drive) : Except SvnError Drive :=
  match drive.stack with
  | [] => .error SvnError.undefinedBehaviour
  | baton :: rest => .ok { drive.call (.closeDirectory baton) with stack := rest }

def popTimes : Nat → Drive → Except SvnError Drive
  | 0, drive => .ok drive
  | count + 1, drive => do popTimes count (← popStack drive)

/-- The first character is never looked at. -/
def countComponents (path : Bytes) : Nat :=
  if path = [separator] then 0 else 1 + (path.drop 1).count separator

/-- A file that is not open yet is opened. -/
def openFileIfNeeded (url : Bytes) (item : CommitItem) (parent : Baton) :
    Option Baton → Drive → Baton × Drive
  | some baton, drive => (baton, drive)
  | none, drive =>
      (drive.next, { drive.call (.openFile url parent item.revision drive.next) with
        next := drive.next + 1 })

/-- The steps for a file: addition, properties, text. -/
def doFileCommit (url : Bytes) (item : CommitItem) (parent : Baton) (drive : Drive) : Drive :=
  let (baton, drive) : Option Baton × Drive :=
    if item.stateFlags.add then
      (some drive.next, { drive.call (.addFile url parent item.copyfromUrl item.revision drive.next)
        with next := drive.next + 1 })
    else (none, drive)
  let (baton, drive) : Option Baton × Drive :=
    if item.stateFlags.propMods then
      let (file, drive) := openFileIfNeeded url item parent baton drive
      (some file, drive.call (.transmitPropDeltas item.path file))
    else (baton, drive)
  if item.stateFlags.textMods then
    let (file, drive) := openFileIfNeeded url item parent baton drive
    { drive with fileMods := drive.fileMods ++ [(item, file)] }
  else
    match baton with
    | some file => drive.call (.closeFile file)
    | none => drive

/-- The steps for a directory: addition, properties. -/
def doDirCommit (url : Bytes) (item : CommitItem) (drive : Drive) : Except SvnError Drive := do
  let drive ←
    if item.stateFlags.add then pushStack url item.copyfromUrl item.revision true drive
    else if item.stateFlags.propMods then pushStack url none item.revision false drive
    else pure drive
  if item.stateFlags.propMods then
    match drive.stack with
    | [] => .error SvnError.undefinedBehaviour
    | baton :: _ => return drive.call (.transmitPropDeltas item.path baton)
  else return drive

def doItemCommit (url : Bytes) (item : CommitItem) (drive : Drive) : Except SvnError Drive :=
  match drive.stack with
  | [] => .error SvnError.undefinedBehaviour
  | parent :: _ =>
      let drive := if item.stateFlags.delete then drive.call (.deleteEntry url item.revision parent)
        else drive
      if item.kind = .file then .ok (doFileCommit url item parent drive)
      else doDirCommit url item drive

/-- The paths that are cut off at each separator from here on, and the whole path. -/
def pieces (before : Bytes) : Bytes → List Bytes
  | [] => [before]
  | byte :: rest =>
      if byte = separator then before :: pieces (before ++ [byte]) rest
      else pieces (before ++ [byte]) rest

/-- The search for the first separator starts one character after the common ancestor. -/
def openParents (itemDir common : Bytes) (drive : Drive) : Except SvnError Drive :=
  if common.length < itemDir.length then
    (pieces (itemDir.take (common.length + 1)) (itemDir.drop (common.length + 1))).foldlM
      (fun drive relUrl => pushStack relUrl none invalidRevnum false drive) drive
  else .ok drive

/-- Without a last url this is the first item. -/
def commitStep (lastUrl : Option Bytes) (item : CommitItem) (drive : Drive) :
    Except SvnError Drive := do
  let common := (lastUrl.bind fun lastUrl => getLongestAncestor lastUrl item.url).getD []
  let drive ←
    match lastUrl with
    | none => pure drive
    | some lastUrl =>
        if common.length < lastUrl.length then
          popTimes (countComponents
            (lastUrl.drop (if common.length = 0 then 0 else common.length + 1))) drive
        else pure drive
  let drive ← openParents (removeComponent item.url) common drive
  doItemCommit item.url item drive

/-- A directory that still exists stays open. -/
def nextLastUrl (item : CommitItem) : Bytes :=
  if item.kind = .dir ∧ (item.stateFlags.delete = false ∨ item.stateFlags.add = true) then item.url
  else removeComponent item.url

def commitLoop (lastUrl : Option Bytes) : List CommitItem → Drive → Except SvnError Drive
  | [], drive => .ok drive
  | item :: items, drive => do
      commitLoop (some (nextLastUrl item)) items (← commitStep lastUrl item drive)

/-- The calls of the editor, if each of them succeeds. -/
def doCommit (commitItems : List CommitItem) : Except SvnError (List EditorCall) := do
  let drive ← commitLoop none commitItems initStack
  let drive ← popTimes drive.stack.length drive
  return drive.calls ++ drive.fileMods.map (fun mod =>
    .transmitTextDeltas mod.1.path mod.1.stateFlags.add mod.2) ++ [.closeEdit]

end Drive

end Subversion.Client
