/-
This file models how the repository turns the difference of two trees into editor calls.
-/

import Subversion.Repos.Roots
import Subversion.Subr.Numbers

namespace Subversion.Repos

open Delta Fs Subr

/-- Batons are numbered in the order in which the editor makes them. -/
abbrev Baton := Nat

inductive EditorCall where
  | setTargetRevision (revision : Nat)
  | openRoot (revision : Int64) (baton : Baton)
  | deleteEntry (name : Bytes) (revision : Int64) (parent : Baton)
  | addDirectory (name : Bytes) (parent : Baton) (copyfrom : Option Bytes) (revision : Int64)
      (baton : Baton)
  | openDirectory (name : Bytes) (parent : Baton) (revision : Int64) (baton : Baton)
  | changeDirProp (baton : Baton) (name : Bytes) (value : Option Bytes)
  | closeDirectory (baton : Baton)
  | addFile (name : Bytes) (parent : Baton) (copyfrom : Option Bytes) (revision : Int64) (baton : Baton)
  | openFile (name : Bytes) (parent : Baton) (revision : Int64) (baton : Baton)
  | applyTextdelta (baton : Baton) (windows : List (Option TxdeltaWindow))
  | changeFileProp (baton : Baton) (name : Bytes) (value : Option Bytes)
  | closeFile (baton : Baton)
  | closeEdit
  deriving DecidableEq

inductive Side where
  | source
  | target
  deriving DecidableEq, Repr

/-- A path is looked up under one of the roots, or the editor is called. -/
inductive Step where
  | access (side : Side) (path : Bytes)
  | call (call : EditorCall)
  deriving DecidableEq

/-- The loops over the hashes. -/
inductive HashLoop where
  | targetProps
  | sourceProps
  | targetEntries
  | sourceEntries
  deriving DecidableEq, Repr

/-- A loop over a hash that belongs to two paths. -/
structure HashUse where
  loop : HashLoop
  source : Option Bytes
  target : Bytes

/-- The order in which a hash gives its entries. It may be another one for every loop. -/
structure KeyOrder where
  list {α : Type} : HashUse → List (Bytes × α) → List (Bytes × α)
  perm {α : Type} (use : HashUse) (entries : List (Bytes × α)) : (list use entries).Perm entries

structure Context where
  store : Store
  fsPath : String
  source : FsRoot
  sourceRevDiffs : Option (Bytes → Option Int64)
  target : FsRoot
  textDeltas : Bool
  recurse : Bool
  order : KeyOrder

def Context.root (c : Context) : Side → FsRoot
  | .source => c.source
  | .target => c.target

def Context.opened (c : Context) (side : Side) (path : Bytes) : Except SvnError Node :=
  openPath c.fsPath (c.root side) path

section Reading

def isDir (c : Context) (side : Side) (path : Bytes) : Except SvnError Bool := do
  return (← c.opened side path).isDir

def nodeId (c : Context) (side : Side) (path : Bytes) : Except SvnError NodeId := do
  return (← c.opened side path).id

def nodeProplist (c : Context) (side : Side) (path : Bytes) : Except SvnError (List (Bytes × Bytes)) := do
  return (c.store.props (← c.opened side path).propKey).list

/-- Properties are the same if their keys are. -/
def propsChanged (c : Context) (target source : Bytes) : Except SvnError Bool := do
  return (← c.opened .target target).propKey ≠ (← c.opened .source source).propKey

def dirEntries (c : Context) (side : Side) (path : Bytes) : Except SvnError (List (Bytes × NodeId)) := do
  match ← c.opened side path with
  | .file _ _ _ => .error ⟨.fsNotDirectory, "Attempted to get entry from non-directory node."⟩
  | .dir _ _ entries => return entries.map fun entry => (entry.1, entry.2.id)

def fileKey (c : Context) (side : Side) (path : Bytes) (error : SvnError) : Except SvnError Bytes := do
  match ← c.opened side path with
  | .file _ _ dataKey => return dataKey
  | .dir _ _ _ => .error error

def notAFile (path : Bytes) : SvnError := ⟨.fsGeneral, "`" ++ bytesText path ++ "' is not a file."⟩

/-- Texts are the same if their keys are. -/
def contentsChanged (c : Context) (target source : Bytes) : Except SvnError Bool := do
  return (← fileKey c .target target (notAFile target)) ≠ (← fileKey c .source source (notAFile source))

def fileContents (c : Context) (side : Side) (path : Bytes) : Except SvnError Bytes := do
  return (c.store.text (← fileKey c side path
    ⟨.fsNotFile, "Attempted to get textual contents of a *non*-file node."⟩)).bytes

/-- A handler that keeps the windows it is given. -/
def collectWindow : WindowHandler (List (Option TxdeltaWindow)) := fun sent window => (sent ++ [window], none)

/-- The windows of a delta, with the end mark. -/
def deltaWindows (source target : Bytes) : Except SvnError (List (Option TxdeltaWindow)) :=
  match txdeltaSendTxstream collectWindow (target.length + 1) (txdelta source target) [] with
  | (_, some error) => .error error
  | (sent, none) => .ok sent

end Reading

section Revisions

/-- The revision of the path, or of the nearest ancestor that has a valid one. -/
def climbRevisions (hash : Bytes → Option Int64) : Nat → Int64 → Bytes → Int64
  | 0, revision, _ => revision
  | fuel + 1, revision, path =>
      if isValidRevnum revision ∨ isEmptyPath path then revision
      else climbRevisions hash fuel ((hash (removeComponent path)).getD revision) (removeComponent path)

def getRevisionFromHash (hash : Option (Bytes → Option Int64)) (path : Bytes) : Int64 :=
  match hash with
  | none => invalidRevnum
  | some hash => climbRevisions hash (path.length + 1) ((hash path).getD invalidRevnum) path

end Revisions

section Files

def removeName {α : Type} (name : Bytes) (table : List (Bytes × α)) : List (Bytes × α) :=
  table.filter (·.1 ≠ name)

/-- The loop over the properties of the target. A property that is found in the source is taken out
there. -/
def changeTargetProps (change : Bytes → Option Bytes → EditorCall) :
    List (Bytes × Bytes) → List (Bytes × Bytes) → List Step × List (Bytes × Bytes)
  | [], sourceProps => ([], sourceProps)
  | (name, value) :: rest, sourceProps =>
      match sourceProps.lookup name with
      | some old =>
          let (steps, left) := changeTargetProps change rest (removeName name sourceProps)
          (if old = value then steps else .call (change name (some value)) :: steps, left)
      | none =>
          let (steps, left) := changeTargetProps change rest sourceProps
          (.call (change name (some value)) :: steps, left)

def changeProps (c : Context) (source : Option Bytes) (target : Bytes)
    (change : Bytes → Option Bytes → EditorCall) (sourceProps targetProps : List (Bytes × Bytes)) :
    List Step :=
  let (steps, left) := changeTargetProps change
    (c.order.list ⟨.targetProps, source, target⟩ targetProps) sourceProps
  steps ++ (c.order.list ⟨.sourceProps, source, target⟩ left).map fun prop => .call (change prop.1 none)

/-- Without a source path the source has no properties. -/
def deltaProplists (c : Context) (source : Option Bytes) (target : Bytes)
    (change : Bytes → Option Bytes → EditorCall) : Except SvnError (List Step) := do
  match source with
  | none =>
      let targetProps ← nodeProplist c .target target
      return .access .target target :: changeProps c none target change [] targetProps
  | some path =>
      if ← propsChanged c target path then
        let sourceProps ← nodeProplist c .source path
        let targetProps ← nodeProplist c .target target
        return .access .target target :: .access .source path ::
          changeProps c (some path) target change sourceProps targetProps
      else return [.access .target target, .access .source path]

/-- Without text deltas only the end mark is sent. -/
def sendTextDelta (c : Context) (baton : Baton) (source target : Bytes) : Except SvnError (List Step) := do
  if c.textDeltas then return [.call (.applyTextdelta baton (← deltaWindows source target))]
  else return [.call (.applyTextdelta baton [none])]

def deltaFiles (c : Context) (baton : Baton) (source : Option Bytes) (target : Bytes) :
    Except SvnError (List Step) := do
  let props ← deltaProplists c source target (.changeFileProp baton)
  match source with
  | none =>
      let text ← fileContents c .target target
      return props ++ .access .target target :: (← sendTextDelta c baton [] text)
  | some path =>
      if ← contentsChanged c target path then
        let old ← fileContents c .source path
        let text ← fileContents c .target target
        return props ++ .access .target target :: .access .source path ::
          (← sendTextDelta c baton old text)
      else return props ++ [.access .target target, .access .source path]

end Files

section Directories

/-- The steps and the next baton. -/
abbrev Emitted := List Step × Baton

/-- The recursion into a directory: its baton, the two paths, and the next baton. -/
abbrev DirDelta := Baton → Option Bytes → Bytes → Baton → Except SvnError Emitted

def delete (dirBaton : Baton) (targetEntry : Bytes) : Step :=
  .call (.deleteEntry targetEntry invalidRevnum dirBaton)

/-- With a source, the entry is added with history. -/
def addFileOrDir (deltaDirs : DirDelta) (c : Context) (dirBaton : Baton) (source : Option (Bytes × Bytes))
    (targetParent targetEntry : Bytes) (next : Baton) : Except SvnError Emitted := do
  let targetFullPath := addComponent targetParent targetEntry
  let isDirectory ← isDir c .target targetFullPath
  let sourceFullPath := source.map fun path => addComponent path.1 path.2
  let baseRevision := match sourceFullPath with
    | none => invalidRevnum
    | some path => getRevisionFromHash c.sourceRevDiffs path
  if isDirectory then
    let (steps, next') ← deltaDirs next sourceFullPath targetFullPath (next + 1)
    return (.access .target targetFullPath ::
      .call (.addDirectory targetEntry dirBaton sourceFullPath baseRevision next) ::
      (steps ++ [.call (.closeDirectory next)]), next')
  else
    let steps ← deltaFiles c next sourceFullPath targetFullPath
    return (.access .target targetFullPath ::
      .call (.addFile targetEntry dirBaton sourceFullPath baseRevision next) ::
      (steps ++ [.call (.closeFile next)]), next + 1)

/-- The declaration has the source paths first and the definition the target paths. The callers
follow the declaration. -/
def replaceFileOrDir (deltaDirs : DirDelta) (c : Context) (dirBaton : Baton)
    (targetParent targetEntry sourceParent sourceEntry : Bytes) (next : Baton) :
    Except SvnError Emitted := do
  let targetFullPath := addComponent targetParent targetEntry
  let isDirectory ← isDir c .target targetFullPath
  let sourceFullPath := addComponent sourceParent sourceEntry
  let baseRevision := getRevisionFromHash c.sourceRevDiffs sourceFullPath
  if isDirectory then
    let (steps, next') ← deltaDirs next (some sourceFullPath) targetFullPath (next + 1)
    return (.access .target targetFullPath ::
      .call (.openDirectory targetEntry dirBaton baseRevision next) ::
      (steps ++ [.call (.closeDirectory next)]), next')
  else
    let steps ← deltaFiles c next (some sourceFullPath) targetFullPath
    return (.access .target targetFullPath ::
      .call (.openFile targetEntry dirBaton baseRevision next) ::
      (steps ++ [.call (.closeFile next)]), next + 1)

/-- The entries of the source directory that were not found in the target yet, with its path. -/
abbrev SourceEntries := Option (Bytes × List (Bytes × NodeId))

/-- One entry of the target: nothing, a new entry, or changes of the old one. The support for copies
is compiled out. -/
def deltaEntry (deltaDirs : DirDelta) (c : Context) (dirBaton : Baton) (sourceEntries : SourceEntries)
    (target name : Bytes) (id : NodeId) (next : Baton) : Except SvnError Emitted := do
  let isDirectory ← isDir c .target (addComponent target name)
  if c.recurse || !isDirectory then
    match sourceEntries with
    | none => addFileOrDir deltaDirs c dirBaton none target name next
    | some (source, entries) =>
        match entries.lookup name with
        | none => addFileOrDir deltaDirs c dirBaton none target name next
        | some sourceId =>
            match idDistance sourceId id with
            | some 0 => return ([], next)
            | none => do
                let (steps, next') ← addFileOrDir deltaDirs c dirBaton none target name next
                return (delete dirBaton name :: steps, next')
            | some _ => replaceFileOrDir deltaDirs c dirBaton source name target name next
  else return ([], next)

/-- The loop over the entries of the target. -/
def deltaEntries (deltaDirs : DirDelta) (c : Context) (dirBaton : Baton) (target : Bytes) :
    List (Bytes × NodeId) → SourceEntries → Baton → Except SvnError (List Step × SourceEntries × Baton)
  | [], sourceEntries, next => .ok ([], sourceEntries, next)
  | (name, id) :: rest, sourceEntries, next => do
      let (steps, next₁) ← deltaEntry deltaDirs c dirBaton sourceEntries target name id next
      let (more, left, next₂) ← deltaEntries deltaDirs c dirBaton target rest
        (sourceEntries.map fun found => (found.1, removeName name found.2)) next₁
      return (.access .target (addComponent target name) :: (steps ++ more), left, next₂)

/-- What is left of the source is deleted. -/
def deleteEntries (c : Context) (dirBaton : Baton) (source : Bytes) :
    List (Bytes × NodeId) → Except SvnError (List Step)
  | [] => .ok []
  | (name, _) :: rest => do
      let isDirectory ← isDir c .source (addComponent source name)
      let more ← deleteEntries c dirBaton source rest
      return .access .source (addComponent source name) ::
        ((if c.recurse || !isDirectory then [delete dirBaton name] else []) ++ more)

def sourceDirEntries (c : Context) : Option Bytes → Except SvnError SourceEntries
  | none => .ok none
  | some path => do return some (path, ← dirEntries c .source path)

def sourceAccess : Option Bytes → List Step
  | none => []
  | some path => [.access .source path]

/-- Each unit of fuel goes down one directory. -/
def deltaDirs (c : Context) : Nat → DirDelta
  | 0 => fun _ _ _ _ => .error SvnError.stackExhausted
  | fuel + 1 => fun dirBaton source target next => do
      let props ← deltaProplists c source target (.changeDirProp dirBaton)
      let targetEntries ← dirEntries c .target target
      let sourceEntries ← sourceDirEntries c source
      let (steps, left, next') ← deltaEntries (deltaDirs c fuel) c dirBaton target
        (c.order.list ⟨.targetEntries, source, target⟩ targetEntries) sourceEntries next
      let deletions ←
        match left with
        | none => pure []
        | some (path, entries) =>
            deleteEntries c dirBaton path (c.order.list ⟨.sourceEntries, source, target⟩ entries)
      return (props ++ .access .target target :: (sourceAccess source ++ steps ++ deletions), next')

end Directories

section Driver

def notADirError (role path : String) : SvnError :=
  ⟨.fsNotDirectory, "not_a_dir_error: invalid " ++ role ++ " directory '" ++ path ++ "'"⟩

/-- Both parents have to be directories under both roots. -/
def checkParent (c : Context) (role : String) (sourceDir targetDir named : Bytes) :
    Except SvnError Unit := do
  let sourceIsDir ← isDir c .source sourceDir
  let targetIsDir ← isDir c .target targetDir
  if sourceIsDir && targetIsDir then return () else .error (notADirError role (bytesText named))

def checkParents (c : Context) (srcParentDir tgtParentDir : Bytes) : Except SvnError Unit := do
  if !isEmptyPath srcParentDir then
    checkParent c "source parent" srcParentDir tgtParentDir srcParentDir
  if !isEmptyPath tgtParentDir then
    checkParent c "target parent" tgtParentDir tgtParentDir tgtParentDir

/-- The target path is split only if there is an entry. -/
def splitTarget (srcEntry : Option Bytes) (tgtPath : Bytes) : Bytes × Option Bytes :=
  if srcEntry = none ∨ isEmptyPath tgtPath then (tgtPath, none)
  else ((splitPath tgtPath).1, some (splitPath tgtPath).2)

/-- An entry that is not there leaves a null pointer behind. -/
def withEntry {α : Type} (entry : Option Bytes) (f : Bytes → Except SvnError α) : Except SvnError α :=
  match entry with
  | none => .error SvnError.undefinedBehaviour
  | some entry => f entry

def srcFullpath (srcParentDir : Bytes) : Option Bytes → Bytes
  | none => srcParentDir
  | some entry => if entry = [] then srcParentDir else addComponent srcParentDir entry

/-- What is done about the entry, or about the whole directory. -/
def deltaItem (fuel : Nat) (c : Context) (srcParentDir : Bytes) (srcEntry : Option Bytes) (tgtPath : Bytes) :
    Except SvnError (List Step) :=
  let (tgtParentDir, tgtEntry) := splitTarget srcEntry tgtPath
  let fullpath := srcFullpath srcParentDir srcEntry
  match nodeId c .target tgtPath with
  | .error error =>
      if error.code = .fsNotFound then
        withEntry srcEntry fun srcEntry => .ok [.access .target tgtPath, delete 0 srcEntry]
      else .error error
  | .ok tgtId =>
      match nodeId c .source fullpath with
      | .error error =>
          if error.code = .fsNotFound then
            withEntry tgtEntry fun tgtEntry => do
              let (steps, _) ← addFileOrDir (deltaDirs c fuel) c 0 none tgtParentDir tgtEntry 1
              return .access .target tgtPath :: .access .source fullpath :: steps
          else .error error
      | .ok srcId =>
          match srcEntry with
          | some (first :: more) =>
              match idDistance srcId tgtId with
              | some 0 => .ok [.access .target tgtPath, .access .source fullpath]
              | none => withEntry tgtEntry fun tgtEntry => do
                  let (steps, _) ← addFileOrDir (deltaDirs c fuel) c 0 none tgtParentDir tgtEntry 1
                  return .access .target tgtPath :: .access .source fullpath ::
                    delete 0 (first :: more) :: steps
              | some _ => withEntry tgtEntry fun tgtEntry => do
                  let (steps, _) ← replaceFileOrDir (deltaDirs c fuel) c 0 srcParentDir (first :: more)
                    tgtParentDir tgtEntry 1
                  return .access .target tgtPath :: .access .source fullpath :: steps
          | _ => do
              let (steps, _) ← deltaDirs c fuel 0 (some fullpath) tgtPath 1
              return .access .target tgtPath :: .access .source fullpath :: steps

def targetRevision (c : Context) : List Step :=
  match c.target.name with
  | .revision rev => [.call (.setTargetRevision rev)]
  | _ => []

/-- All steps of a successful call. -/
def dirDelta (fuel : Nat) (c : Context) (srcParentDir srcEntry tgtPath : Option Bytes) :
    Except SvnError (List Step) :=
  match srcParentDir, tgtPath with
  | none, _ => .error (notADirError "source parent" "(null)")
  | some _, none => .error ⟨.fsPathSyntax, "svn_repos_dir_delta: invalid target path"⟩
  | some srcParentDir, some tgtPath => do
      checkParents c srcParentDir (splitTarget srcEntry tgtPath).1
      let steps ← deltaItem fuel c srcParentDir srcEntry tgtPath
      return targetRevision c ++
        .call (.openRoot (getRevisionFromHash c.sourceRevDiffs srcParentDir) 0) ::
        (steps ++ [.call (.closeDirectory 0), .call .closeEdit])

end Driver

end Subversion.Repos
