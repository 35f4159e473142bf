/-
This file models the editor that writes a tree delta as XML.
-/

import Subversion.Subr.Path
import Subversion.Delta.Window

namespace Subversion.Delta.Xml

open Subr

/-- A baton is NULL, or the directories and the files are counted as they are opened. -/
abbrev Baton := Option Nat

/-- `none` is SVN_INVALID_REVNUM. -/
abbrev Revision := Option Nat

inductive AddOpen where
  | add
  | opened
  deriving DecidableEq, Repr

inductive DirFile where
  | dir
  | file
  deriving DecidableEq, Repr

/-- The calls to an editor. A text delta comes with all calls of its window handler. -/
inductive Call where
  | setTargetRevision (revision : Revision)
  | openRoot (baseRevision : Revision)
  | deleteEntry (path : Bytes) (revision : Revision) (parent : Baton)
  | addOpen (addopen : AddOpen) (dirfile : DirFile) (path : Bytes) (parent : Baton)
      (basePath : Option Bytes) (baseRevision : Revision)
  | changeProp (dirfile : DirFile) (baton : Baton) (name : Bytes) (value : Option Bytes)
  | closeDirectory (dir : Baton)
  | applyTextdelta (file : Baton) (handled : List (Option TxdeltaWindow))
  | closeFile (file : Baton)
  | closeEdit
  deriving DecidableEq, Repr

namespace Call

def addDirectory (path : Bytes) (parent : Baton) (copyfromPath : Option Bytes)
    (copyfromRevision : Revision) : Call :=
  .addOpen .add .dir path parent copyfromPath copyfromRevision

def openDirectory (path : Bytes) (parent : Baton) (baseRevision : Revision) : Call :=
  .addOpen .opened .dir path parent none baseRevision

def addFile (path : Bytes) (parent : Baton) (copyfromPath : Option Bytes)
    (copyfromRevision : Revision) : Call :=
  .addOpen .add .file path parent copyfromPath copyfromRevision

def openFile (path : Bytes) (parent : Baton) (baseRevision : Revision) : Call :=
  .addOpen .opened .file path parent none baseRevision

def changeDirProp (dir : Baton) (name : Bytes) (value : Option Bytes) : Call :=
  .changeProp .dir dir name value

def changeFileProp (file : Baton) (name : Bytes) (value : Option Bytes) : Call :=
  .changeProp .file file name value

end Call

inductive Tag where
  | deltaPkg
  | treeDelta
  | add
  | delete
  | opened
  | file
  | dir
  | textDelta
  | textDeltaRef
  | propDelta
  | set
  deriving DecidableEq, Repr

structure Atts where
  name : Option Bytes := none
  basePath : Option Bytes := none
  baseRev : Revision := none
  copyfromPath : Option Bytes := none
  copyfromRev : Revision := none
  targetRev : Revision := none
  id : Option Int := none
  encoding : Option String := none
  deriving DecidableEq, Repr

/-- What expat reports. The windows stand for their encoded svndiff data. -/
inductive XmlEvent where
  | start (tag : Tag) (atts : Atts)
  | finish (tag : Tag)
  | text (data : Bytes)
  | window (window : TxdeltaWindow)
  deriving DecidableEq, Repr

inductive ElemType where
  | deltaPkg
  | dir
  | dirPropDelta
  | treeDelta
  | file
  | filePropDelta
  deriving DecidableEq, Repr

/-- The id is 0 while the file is worked on, and -1 after its text delta. -/
structure FileBaton where
  addopen : AddOpen
  txdeltaId : Int
  closed : Bool
  deriving DecidableEq, Repr

/-- The batons that were given out are kept with the edit baton. The root has no `addopen`. -/
structure EditBaton where
  elem : ElemType
  curfile : Option Nat
  targetRevision : Revision
  txdeltaIdCounter : Nat
  dirs : List (Option AddOpen)
  files : List FileBaton
  deriving DecidableEq, Repr

/-- The element is first set when the root is opened. -/
def getXmlEditor : EditBaton := ⟨.deltaPkg, none, none, 1, [], []⟩

def outertag : AddOpen → Tag
  | .add => .add
  | .opened => .opened

def innertag : DirFile → Tag
  | .dir => .dir
  | .file => .file

/-- An edit baton with the tags that a step writes. -/
abbrev Output := EditBaton × List XmlEvent

section GetToElem

variable (eb : EditBaton) (elem : ElemType)

def unwindFileProps : Output :=
  if eb.elem = .filePropDelta ∧ elem ≠ .filePropDelta then
    ({ eb with elem := .file }, [.finish .propDelta])
  else (eb, [])

/-- A file that was left without a text delta gets a reference to a later one. -/
def closeElement (file : Nat) (fb : FileBaton) : Output :=
  if fb.txdeltaId = 0 then
    ({ eb with
      elem := .treeDelta
      curfile := none
      txdeltaIdCounter := eb.txdeltaIdCounter + 1
      files := eb.files.set file { fb with txdeltaId := eb.txdeltaIdCounter, closed := true } },
      [.start .textDeltaRef { id := some (eb.txdeltaIdCounter : Int) }, .finish .textDeltaRef,
        .finish .file, .finish (outertag fb.addopen)])
  else
    ({ eb with
      elem := .treeDelta
      curfile := none
      files := eb.files.set file { fb with closed := true } },
      [.finish .file, .finish (outertag fb.addopen)])

def unwindFile : Option Output :=
  if eb.elem = .file ∧ elem ≠ .file ∧ elem ≠ .filePropDelta then do
    let file ← eb.curfile
    let fb ← eb.files[file]?
    some (closeElement eb file fb)
  else some (eb, [])

def unwindTree : Output :=
  if eb.elem = .treeDelta ∧ (elem = .dir ∨ elem = .dirPropDelta) then
    ({ eb with elem := .dir }, [.finish .treeDelta])
  else (eb, [])

def unwindDirProps : Output :=
  if eb.elem = .dirPropDelta ∧ elem ≠ .dirPropDelta then
    ({ eb with elem := .dir }, [.finish .propDelta])
  else (eb, [])

def windTree : Output :=
  if eb.elem = .dir ∧ elem = .treeDelta then
    ({ eb with elem := .treeDelta }, [.start .treeDelta {}])
  else (eb, [])

def windProps : Output :=
  if eb.elem = .dir ∧ elem = .dirPropDelta ∨ eb.elem = .file ∧ elem = .filePropDelta then
    ({ eb with elem := elem }, [.start .propDelta {}])
  else (eb, [])

/-- The assertion fails when the element is not reached. -/
def getToElem : Option Output := do
  let (eb, fileProps) := unwindFileProps eb elem
  let (eb, file) ← unwindFile eb elem
  let (eb, tree) := unwindTree eb elem
  let (eb, dirProps) := unwindDirProps eb elem
  let (eb, newTree) := windTree eb elem
  let (eb, newProps) := windProps eb elem
  if eb.elem = elem then some (eb, fileProps ++ file ++ tree ++ dirProps ++ newTree ++ newProps)
  else none

end GetToElem

/-- The path of a copy is stored as text where a string buffer is read. -/
def outputAddopen (eb : EditBaton) (addopen : AddOpen) (dirfile : DirFile) (path : Bytes)
    (basePath : Option Bytes) (baseRevision : Revision) : Option Output := do
  let (eb, events) ← getToElem eb .treeDelta
  if addopen = .add ∧ basePath ≠ none then none
  else
    let atts : Atts :=
      match addopen with
      | .add => { copyfromRev := baseRevision }
      | .opened => { baseRev := baseRevision }
    let elem : ElemType :=
      match dirfile with
      | .dir => .dir
      | .file => .file
    some ({ eb with elem := elem },
      events ++ [.start (outertag addopen) { name := some (basename path) },
        .start (innertag dirfile) atts])

/-- The new baton is made, and a file becomes the current one. -/
def makeBaton (eb : EditBaton) (addopen : AddOpen) : DirFile → EditBaton
  | .dir => { eb with dirs := eb.dirs ++ [some addopen] }
  | .file => { eb with
      files := eb.files ++ [⟨addopen, 0, false⟩]
      curfile := some eb.files.length }

def outputPropset (eb : EditBaton) (elem : ElemType) (name : Bytes) (value : Option Bytes) :
    Option Output := do
  let (eb, events) ← getToElem eb elem
  match value with
  | some value =>
      some (eb, events ++ [.start .set { name := some name }, .text value, .finish .set])
  | none => some (eb, events ++ [.start .delete { name := some name }, .finish .delete])

def closeDirectory (eb : EditBaton) (addopen : Option AddOpen) : Option Output := do
  let (eb, events) ← getToElem eb .dir
  match addopen with
  | some addopen =>
      some ({ eb with elem := .treeDelta }, events ++ [.finish .dir, .finish (outertag addopen)])
  | none => some ({ eb with elem := .deltaPkg }, events)

/-- Each window is encoded, and the end mark closes the element. -/
def writeWindow : Option TxdeltaWindow → XmlEvent
  | some window => .window window
  | none => .finish .textDelta

/-- A deferred text delta carries the id of the file and comes after the tree. -/
def applyTextdelta (eb : EditBaton) (file : Nat) (handled : List (Option TxdeltaWindow)) :
    Option Output := do
  let fb ← eb.files[file]?
  let (eb, events, atts) ←
    if fb.txdeltaId = 0 then do
      let (eb, events) ← getToElem eb .file
      some (eb, events, ({} : Atts))
    else some (eb, [], ({ id := some fb.txdeltaId } : Atts))
  some ({ eb with files := eb.files.set file { fb with txdeltaId := -1 } },
    events ++ [.start .textDelta atts] ++ handled.map writeWindow)

/-- The element of a deferred file was closed before. -/
def closeFile (eb : EditBaton) (file : Nat) : Option Output := do
  let fb ← eb.files[file]?
  if fb.closed then some (eb, [])
  else
    let (eb, events) ← getToElem eb .file
    some ({ eb with elem := .treeDelta, curfile := none },
      events ++ [.finish .file, .finish (outertag fb.addopen)])

def writeCall (eb : EditBaton) : Call → Option Output
  | .setTargetRevision revision => some ({ eb with targetRevision := revision }, [])
  | .openRoot baseRevision =>
      some ({ eb with elem := .dir, dirs := eb.dirs ++ [none] },
        [.start .deltaPkg { baseRev := baseRevision, targetRev := eb.targetRevision }])
  | .deleteEntry path revision _ => do
      let (eb, events) ← getToElem eb .treeDelta
      some (eb, events ++
        [.start .delete { name := some (basename path), baseRev := revision }, .finish .delete])
  | .addOpen addopen dirfile path _ basePath baseRevision => do
      let (eb, events) ← outputAddopen eb addopen dirfile path basePath baseRevision
      some (makeBaton eb addopen dirfile, events)
  | .changeProp .dir _ name value => outputPropset eb .dirPropDelta name value
  | .changeProp .file _ name value => outputPropset eb .filePropDelta name value
  | .closeDirectory dir => do
      let addopen ← eb.dirs[← dir]?
      closeDirectory eb addopen
  | .applyTextdelta file handled => do applyTextdelta eb (← file) handled
  | .closeFile file => do closeFile eb (← file)
  | .closeEdit => some (eb, [.finish .deltaPkg])

/-- The tags of all calls, unless an assertion fails on the way. -/
def writeCalls (eb : EditBaton) : List Call → Option (List XmlEvent)
  | [] => some []
  | call :: calls => do
      let (eb, events) ← writeCall eb call
      let rest ← writeCalls eb calls
      some (events ++ rest)

end Subversion.Delta.Xml
