/-
This file models the parser that drives an editor from the XML form of a tree delta.
-/

import Subversion.Error
import Subversion.Delta.XmlOutput

namespace Subversion.Delta.Xml

open Subr

/-- An element that is not closed yet. A tree delta holds the names of its entries. -/
structure Frame where
  tag : Tag
  name : Option Bytes := none
  ancestorPath : Option Bytes := none
  ancestorRevision : Revision := none
  refId : Option Int := none
  encoding : Option String := none
  baton : Baton := none
  fileBaton : Baton := none
  names : Option (List Bytes) := none
  hashed : Bool := false
  deriving DecidableEq, Repr

structure Propdelta where
  kind : DirFile
  name : Bytes
  value : Bytes
  deriving DecidableEq, Repr

/-- The youngest frame comes first. The editor records its calls and counts the batons it gives out. -/
structure Digger where
  stack : List Frame
  basePath : Bytes
  baseRevision : Revision
  dirBaton : Baton
  fileBaton : Baton
  svndiffParser : Bool
  postfixHash : Int → Option Nat
  currentPropdelta : Option Propdelta
  calls : List Call
  nextDir : Nat
  nextFile : Nat

/-- The parse is given up. The calls that were made before stay made. -/
structure Bailout where
  calls : List Call
  error : SvnError
  deriving DecidableEq, Repr

abbrev Parsed := Except Bailout Digger

def makeXmlParser (basePath : Bytes) (baseRevision : Revision) : Digger where
  stack := []
  basePath := basePath
  baseRevision := baseRevision
  dirBaton := none
  fileBaton := none
  svndiffParser := false
  postfixHash := fun _ => none
  currentPropdelta := none
  calls := []
  nextDir := 0
  nextFile := 0

def tagmap : Tag → String
  | .deltaPkg => "delta-pkg"
  | .treeDelta => "tree-delta"
  | .add => "add"
  | .delete => "delete"
  | .opened => "open"
  | .file => "file"
  | .dir => "dir"
  | .textDelta => "text-delta"
  | .textDeltaRef => "text-delta-ref"
  | .propDelta => "prop-delta"
  | .set => "set"

def xmlValidationError (tag : Tag) (destroy : Bool) : SvnError :=
  ⟨.malformedXml, "XML validation error: got unexpected " ++
    (if destroy then "</" else "<") ++ tagmap tag ++ ">"⟩

namespace Digger

variable (digger : Digger)

def bailout (error : SvnError) : Parsed := .error ⟨digger.calls, error⟩

/-- An error of a check stops the parse. -/
def orBailout {α : Type} : Except SvnError α → Except Bailout α
  | .ok value => .ok value
  | .error error => .error ⟨digger.calls, error⟩

def call (call : Call) : Digger := { digger with calls := digger.calls ++ [call] }

def pop : Digger := { digger with stack := digger.stack.tail }

end Digger

section Stack

/-- The rest of the ancestry comes from the nearest frames that have it. The path is extended by the
first name on the way. -/
def deriveFrom (thisName path : Option Bytes) (revision : Revision) :
    List Frame → Option Bytes × Revision
  | [] => (path, revision)
  | p :: older =>
      let thisName := thisName.or p.name
      let path := path.or (do some (addComponent (← p.ancestorPath) (← thisName)))
      let revision := revision.or p.ancestorRevision
      if path.isSome ∧ revision.isSome then (path, revision)
      else deriveFrom thisName path revision older

def maybeDeriveAncestry (frame : Frame) (older : List Frame) : Except SvnError Frame :=
  if frame.tag ≠ .dir ∧ frame.tag ≠ .file then .ok frame
  else if frame.ancestorPath.isSome ∧ frame.ancestorRevision.isSome then .ok frame
  else
    let (path, revision) := deriveFrom none frame.ancestorPath frame.ancestorRevision older
    if path = none ∨ revision = none then
      .error ⟨.xmlMissingAncestry, "unable to derive ancestry"⟩
    else .ok { frame with ancestorPath := path, ancestorRevision := revision }

/-- Each entry of a tree delta has a name of its own. The youngest frame remembers it. -/
def checkDirentNamespace (youngest frame : Frame) : Except SvnError Frame :=
  if frame.tag ≠ .add ∧ frame.tag ≠ .opened then .ok youngest
  else
    match youngest.names, frame.name with
    | none, _ =>
        .error ⟨.malformedXml, "check_dirent_namespace: parent frame has no namespace hash."⟩
    | some _, none =>
        .error ⟨.malformedXml, "check_dirent_namespace: <add> or <open> has no `name' attribute."⟩
    | some names, some name =>
        if name = [] then
          .error ⟨.malformedXml, "check_dirent_namespace: <add> or <open> has no `name' attribute."⟩
        else if name ∈ names then
          -- the name is passed as the format, and the format as its argument
          .error ⟨.malformedXml, String.ofList (name.map fun byte => Char.ofNat byte.toNat)⟩
        else .ok { youngest with names := some (name :: names) }

/-- Which elements may hold an element. -/
def mayFollow (tag youngest : Tag) : Bool :=
  match tag with
  | .treeDelta => youngest = .dir || youngest = .deltaPkg
  | .add | .opened => youngest = .treeDelta
  | .delete => youngest = .treeDelta || youngest = .propDelta
  | .file | .dir => youngest = .add || youngest = .opened
  | .propDelta => youngest = .file || youngest = .dir
  | .textDelta => youngest = .file || youngest = .deltaPkg
  | .set => youngest = .propDelta
  | .deltaPkg | .textDeltaRef => true

/-- A path goes with a file or a directory, and a revision also with a deletion. -/
def mayHaveAncestry (frame : Frame) : Bool :=
  frame.tag = .file || frame.tag = .dir ||
    frame.ancestorPath.isNone && (frame.ancestorRevision.isNone || frame.tag = .delete)

/-- A new frame inherits the baton of its parent. -/
def doStackAppend (digger : Digger) (frame : Frame) : Except SvnError Digger :=
  match digger.stack with
  | [] =>
      if frame.tag = .deltaPkg then .ok { digger with stack := [frame] }
      else .error (xmlValidationError frame.tag false)
  | youngest :: older =>
      if mayFollow frame.tag youngest.tag ∧ mayHaveAncestry frame then do
        let youngest ← checkDirentNamespace youngest frame
        let frame ← maybeDeriveAncestry { frame with baton := youngest.baton } (youngest :: older)
        .ok { digger with stack := frame :: youngest :: older }
      else .error (xmlValidationError frame.tag false)

end Stack

section Callbacks

variable (digger : Digger)

/-- The path of an added directory is not passed on. -/
def doDirectoryCallback (frame outer : Frame) (older : List Frame) (atts : Atts)
    (addopen : AddOpen) : Parsed :=
  match outer.name with
  | none => digger.bailout
      ⟨.malformedXml, "do_directory_callback: <dir>'s parent tag has no 'name' field."⟩
  | some dirName =>
      let path := atts.basePath.or frame.ancestorPath
      let revision := atts.baseRev.or frame.ancestorRevision
      let call : Call :=
        match addopen with
        | .add => .addDirectory dirName frame.baton none none
        | .opened => .openDirectory dirName frame.baton revision
      .ok { digger.call call with
        stack := { frame with
          ancestorPath := path
          ancestorRevision := revision
          baton := some digger.nextDir } :: outer :: older
        dirBaton := some digger.nextDir
        nextDir := digger.nextDir + 1 }

def doFileCallback (frame outer : Frame) (older : List Frame) (atts : Atts)
    (addopen : AddOpen) : Parsed :=
  match outer.name with
  | none => digger.bailout
      ⟨.malformedXml, "do_file_callback: <file>'s parent tag has no 'name' field."⟩
  | some filename =>
      let path := atts.basePath.or frame.ancestorPath
      let revision := atts.baseRev.or frame.ancestorRevision
      let call : Call :=
        match addopen with
        | .add => .addFile filename frame.baton path revision
        | .opened => .openFile filename frame.baton revision
      .ok { digger.call call with
        stack := { frame with
          ancestorPath := path
          ancestorRevision := revision
          fileBaton := some digger.nextFile } :: outer :: older
        fileBaton := some digger.nextFile
        nextFile := digger.nextFile + 1 }

def doDeleteDirent (frame : Frame) (atts : Atts) : Parsed :=
  match frame.name with
  | none => digger.bailout
      ⟨.malformedXml, "do_delete_dirent: <delete> tag has no 'name' field."⟩
  | some direntName => .ok (digger.call (.deleteEntry direntName atts.baseRev frame.baton))

/-- No directory is the current one any more. -/
def doCloseDirectory (frame : Frame) : Digger :=
  { digger.call (.closeDirectory frame.baton) with dirBaton := none }

/-- A file that waits for its text delta stays open. -/
def doCloseFile (frame : Frame) : Digger :=
  { (if frame.hashed then digger else digger.call (.closeFile frame.fileBaton)) with
    svndiffParser := false
    fileBaton := none }

def lookupFileBaton (refId : Int) : Except SvnError Nat :=
  match digger.postfixHash refId with
  | none => .error
      ⟨.malformedXml, "lookup_file_baton: ref_id `" ++ toString refId ++ "' has no associated file"⟩
  | some file => .ok file

def applySvndiff (file : Baton) (encoding : Option String) : Parsed :=
  let digger := digger.call (.applyTextdelta file [])
  match encoding with
  | none => .ok { digger with svndiffParser := true }
  | some encoding =>
      if encoding = "base64" ∨ encoding = "quoted-printable" then
        .ok { digger with svndiffParser := true }
      else digger.bailout
        ⟨.xmlUnknownEncoding, "do_begin_textdelta: unknown encoding " ++ encoding ++ "."⟩

/-- The file of a text delta is found by its id, or it is the current one. -/
def doBeginTextdelta (frame parent : Frame) (older : List Frame) : Parsed :=
  match frame.refId with
  | none =>
      if parent.tag = .deltaPkg then
        digger.bailout ⟨.malformedXml, "do_begin_textdelta: postfix text-delta lacks ID."⟩
      else applySvndiff digger digger.fileBaton frame.encoding
  | some refId =>
      if parent.tag = .file then
        digger.bailout ⟨.malformedXml, "do_begin_textdelta: in-line text-delta has ID."⟩
      else do
        let file ← digger.orBailout (lookupFileBaton digger refId)
        applySvndiff
          { digger with stack := { frame with fileBaton := some file } :: parent :: older }
          (some file) frame.encoding

def doBeginTextdeltaref (frame parent : Frame) (older : List Frame) : Parsed :=
  match frame.refId with
  | none => digger.bailout ⟨.malformedXml, "do_begin_textdeltaref:  reference has no `id'."⟩
  | some refId => .ok { digger with
      postfixHash := Function.update digger.postfixHash refId parent.fileBaton
      stack := frame :: { parent with hashed := true } :: older }

def doBeginPropdelta (parent : Frame) : Parsed :=
  match parent.tag with
  | .file => .ok { digger with currentPropdelta := some ⟨.file, [], []⟩ }
  | .dir => .ok { digger with currentPropdelta := some ⟨.dir, [], []⟩ }
  | _ => digger.bailout
      ⟨.malformedXml, "do_begin_propdelta: <prop-delta> tag has unknown context!"⟩

/-- A copy of the name is made, so there has to be one. -/
def doBeginSetprop (frame : Frame) : Parsed :=
  match digger.currentPropdelta, frame.name with
  | none, _ => .ok digger
  | some _, none => digger.bailout .undefinedBehaviour
  | some propdelta, some name =>
      .ok { digger with currentPropdelta := some { propdelta with name := name } }

def doDeleteProp (frame : Frame) : Parsed :=
  match digger.currentPropdelta, frame.name with
  | none, _ => .ok digger
  | some _, none => digger.bailout
      ⟨.malformedXml, "do_delete_prop: <delete> tag has no 'name' field."⟩
  | some propdelta, some name =>
      .ok { digger with currentPropdelta := some { propdelta with name := name } }

/-- An empty value is sent as a deletion. -/
def doPropDeltaCallback : Digger :=
  match digger.currentPropdelta with
  | none => digger
  | some propdelta =>
      let value := if propdelta.value = [] then none else some propdelta.value
      let baton : Baton :=
        match propdelta.kind with
        | .file => digger.fileBaton
        | .dir => digger.dirBaton
      { digger.call (.changeProp propdelta.kind baton propdelta.name value) with
        currentPropdelta := some ⟨propdelta.kind, [], []⟩ }

end Callbacks

section Handlers

variable (digger : Digger)

def newFrame (tag : Tag) (atts : Atts) : Frame where
  tag := tag
  name := atts.name
  ancestorPath := if tag = .add then atts.copyfromPath else atts.basePath
  ancestorRevision := if tag = .add then atts.copyfromRev else atts.baseRev
  refId := atts.id
  encoding := atts.encoding

/-- A revision that was given to the parser overrides the one of the package. -/
def startDeltaPkg (frame : Frame) (atts : Atts) : Except Bailout (Digger × Frame) :=
  match digger.baseRevision.or atts.targetRev with
  | none => .error ⟨digger.calls, .xmlMissingAncestry,
      "xml_handle_start: no valid target revision provided!"⟩
  | some targetRev => .ok
      ({ digger.call (.setTargetRevision (some targetRev)) with baseRevision := some targetRev },
        { frame with
          ancestorPath := some digger.basePath
          ancestorRevision := some targetRev })

/-- The root is opened with a tree delta of the package. -/
def startTreeDelta (frame : Frame) : Except Bailout (Digger × Frame) :=
  match digger.stack with
  | [] => .error ⟨digger.calls, .undefinedBehaviour⟩
  | youngest :: older =>
      if youngest.tag = .deltaPkg then
        .ok ({ digger.call (.openRoot frame.ancestorRevision) with
          stack := { youngest with baton := some digger.nextDir } :: older
          nextDir := digger.nextDir + 1 }, { frame with names := some [] })
      else .ok (digger, { frame with names := some [] })

/-- What the new youngest frame means to the editor. -/
def interpretFrame (atts : Atts) : Parsed :=
  match digger.stack with
  | [] => .ok digger
  | [_] => .ok digger
  | frame :: previous :: older =>
      match frame.tag, previous.tag with
      | .dir, .add => doDirectoryCallback digger frame previous older atts .add
      | .dir, .opened => doDirectoryCallback digger frame previous older atts .opened
      | .delete, .treeDelta => doDeleteDirent digger frame atts
      | .file, .add => doFileCallback digger frame previous older atts .add
      | .file, .opened => doFileCallback digger frame previous older atts .opened
      | .textDelta, _ => doBeginTextdelta digger frame previous older
      | .textDeltaRef, _ => doBeginTextdeltaref digger frame previous older
      | .propDelta, _ => doBeginPropdelta digger previous
      | .set, _ => doBeginSetprop digger frame
      | .delete, .propDelta => doDeleteProp digger frame
      | _, _ => .ok digger

def xmlHandleStart (tag : Tag) (atts : Atts) : Parsed := do
  let frame := newFrame tag atts
  let (digger, frame) ←
    match tag with
    | .deltaPkg => startDeltaPkg digger frame atts
    | .treeDelta => startTreeDelta digger frame
    | _ => .ok (digger, frame)
  let digger ← digger.orBailout (doStackAppend digger frame)
  interpretFrame digger atts

/-- The stream of a text delta ends with the NULL window. -/
def handleWindow (window : Option TxdeltaWindow) : Digger :=
  match digger.calls.getLast? with
  | some (.applyTextdelta file handled) => { digger with
      calls := digger.calls.dropLast ++ [.applyTextdelta file (handled ++ [window])] }
  | _ => digger

/-- A file whose text delta comes late has no other end tag. -/
def endTextDelta (frame : Frame) : Digger :=
  let digger := if digger.svndiffParser then handleWindow digger none else digger
  if frame.refId.isSome then doCloseFile digger frame else digger

/-- The root has no element, so that its tree delta stands for it. -/
def endEvent (frame : Frame) (older : List Frame) : Digger :=
  match frame.tag with
  | .dir => doCloseDirectory digger frame
  | .file => doCloseFile digger frame
  | .textDelta => endTextDelta digger frame
  | .set => doPropDeltaCallback digger
  | .delete =>
      if older.head?.map (·.tag) = some .propDelta then doPropDeltaCallback digger else digger
  | .treeDelta =>
      if older.head?.map (·.tag) = some .deltaPkg then doCloseDirectory digger frame else digger
  | _ => digger

def xmlHandleEnd (tag : Tag) : Parsed :=
  match digger.stack with
  | [] => digger.bailout .undefinedBehaviour
  | frame :: older =>
      if frame.tag = tag then .ok (endEvent digger frame older).pop
      else digger.bailout (xmlValidationError tag true)

/-- Text counts as the value of a property, and windows go to the handler of a text delta. -/
def xmlHandleData (event : XmlEvent) : Parsed :=
  match digger.stack with
  | [] => digger.bailout ⟨.malformedXml, "xml_handle_data: no XML context!"⟩
  | frame :: _ =>
      match frame.tag, event, digger.currentPropdelta with
      | .textDelta, .window window, _ =>
          .ok (if digger.svndiffParser then handleWindow digger (some window) else digger)
      | .set, .text data, some propdelta => .ok { digger with
          currentPropdelta := some { propdelta with value := propdelta.value ++ data } }
      | _, _, _ => .ok digger

def xmlHandle : XmlEvent → Parsed
  | .start tag atts => xmlHandleStart digger tag atts
  | .finish tag => xmlHandleEnd digger tag
  | event => xmlHandleData digger event

def xmlParse : List XmlEvent → Digger → Parsed
  | [], digger => .ok digger
  | event :: events, digger => do xmlParse events (← xmlHandle digger event)

end Handlers

/-- The calls to the editor. The edit is closed after the last event. -/
def xmlAutoParse (basePath : Bytes) (baseRevision : Revision) (events : List XmlEvent) :
    Except Bailout (List Call) := do
  let digger ← xmlParse events (makeXmlParser basePath baseRevision)
  .ok (digger.call .closeEdit).calls

end Subversion.Delta.Xml
