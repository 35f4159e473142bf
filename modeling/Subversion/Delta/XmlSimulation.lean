/-
This file relates the stages of a drive to the states of the editor that writes XML and of the parser
that reads it.
-/

import Subversion.Delta.XmlParse
import Subversion.Delta.DriveRules

namespace Subversion.Delta.Xml

open Subr

section Parse

theorem xmlParse_append (events more : List XmlEvent) (digger : Digger) :
    xmlParse (events ++ more) digger = (xmlParse events digger >>= xmlParse more) := by
  induction events generalizing digger with
  | nil => rfl
  | cons event events step =>
      rw [List.cons_append, xmlParse, xmlParse]
      cases xmlHandle digger event with
      | error bailout => rfl
      | ok next => exact step next

theorem xmlParse_append_ok {events more : List XmlEvent} {digger middle : Digger}
    (parsed : xmlParse events digger = .ok middle) :
    xmlParse (events ++ more) digger = xmlParse more middle := by
  rw [xmlParse_append, parsed]
  rfl

theorem xmlParse_cons_ok {event : XmlEvent} {events : List XmlEvent} {digger middle : Digger}
    (handled : xmlHandle digger event = .ok middle) :
    xmlParse (event :: events) digger = xmlParse events middle := by
  rw [xmlParse, handled]
  rfl

theorem xmlParse_singleton (event : XmlEvent) (digger : Digger) :
    xmlParse [event] digger = xmlHandle digger event := by
  rw [xmlParse]
  cases xmlHandle digger event with
  | error bailout => rfl
  | ok next => rfl

theorem xmlHandle_finish {digger : Digger} {frame : Frame} {older : List Frame} (tag : Tag)
    (stack : digger.stack = frame :: older) (same : frame.tag = tag) :
    xmlHandle digger (.finish tag) = .ok (endEvent digger frame older).pop := by
  rw [xmlHandle, xmlHandleEnd, stack]
  exact if_pos same

/-- The end of these elements means nothing to the editor. -/
theorem xmlHandle_finish_plain {digger : Digger} {frame : Frame} {older : List Frame} (tag : Tag)
    (stack : digger.stack = frame :: older) (same : frame.tag = tag)
    (plain : tag ∈ [Tag.add, .opened, .propDelta, .textDeltaRef]) :
    xmlHandle digger (.finish tag) = .ok { digger with stack := older } := by
  rw [xmlHandle_finish _ stack same]
  simp only [List.mem_cons, List.not_mem_nil, or_false] at plain
  rcases plain with rfl | rfl | rfl | rfl <;> simp [endEvent, same, Digger.pop, stack]

/-- An element that is neither an entry nor its content goes on the stack as it is. -/
theorem doStackAppend_plain {digger : Digger} {frame youngest : Frame} {older : List Frame}
    (stack : digger.stack = youngest :: older) (follows : mayFollow frame.tag youngest.tag = true)
    (noAncestry : mayHaveAncestry frame = true)
    (plain : frame.tag ∉ [Tag.add, .opened, .dir, .file]) :
    doStackAppend digger frame =
      .ok { digger with stack := { frame with baton := youngest.baton } :: youngest :: older } := by
  simp only [List.mem_cons, List.not_mem_nil, or_false, not_or] at plain
  obtain ⟨notAdd, notOpen, notDir, notFile⟩ := plain
  rw [doStackAppend, stack]
  simp only [follows, noAncestry, and_self, if_true]
  rw [checkDirentNamespace, if_pos ⟨notAdd, notOpen⟩]
  simp only [bind, Except.bind]
  rw [maybeDeriveAncestry, if_pos ⟨notDir, notFile⟩]

/-- Packages and tree deltas apart, a new frame goes on the stack before it is interpreted. -/
theorem xmlHandle_start_eq (digger : Digger) {tag : Tag} (atts : Atts)
    (plain : tag ≠ .deltaPkg ∧ tag ≠ .treeDelta) : xmlHandle digger (.start tag atts) =
      (digger.orBailout (doStackAppend digger (newFrame tag atts)) >>= (interpretFrame · atts)) := by
  cases tag with
  | deltaPkg | treeDelta => simp at plain
  | _ => rfl

theorem xmlHandle_start {digger next : Digger} {tag : Tag} {atts : Atts}
    (plain : tag ≠ .deltaPkg ∧ tag ≠ .treeDelta)
    (appended : doStackAppend digger (newFrame tag atts) = .ok next) :
    xmlHandle digger (.start tag atts) = interpretFrame next atts := by
  rw [xmlHandle_start_eq digger atts plain, appended]
  rfl

theorem xmlHandle_textDeltaRef {digger : Digger} {inner : Frame} {older : List Frame} (id : Int)
    (stack : digger.stack = inner :: older) :
    xmlHandle digger (.start .textDeltaRef { id := some id }) = .ok { digger with
      postfixHash := Function.update digger.postfixHash id inner.fileBaton
      stack := { newFrame .textDeltaRef { id := some id } with baton := inner.baton } ::
        { inner with hashed := true } :: older } := by
  rw [xmlHandle_start (by simp) (doStackAppend_plain stack rfl rfl (by simp [newFrame]))]
  rfl

theorem xmlHandle_treeDelta {digger : Digger} {inner : Frame} {older : List Frame}
    (stack : digger.stack = inner :: older) (tag : inner.tag = .dir) :
    xmlHandle digger (.start .treeDelta {}) = .ok { digger with
      stack := { newFrame .treeDelta {} with names := some [], baton := inner.baton } ::
        inner :: older } := by
  have started : startTreeDelta digger (newFrame .treeDelta {}) =
      .ok (digger, { newFrame .treeDelta {} with names := some [] }) := by
    rw [startTreeDelta, stack]
    exact if_neg (by simp [tag])
  rw [xmlHandle, xmlHandleStart]
  simp only [started, bind, Except.bind]
  rw [doStackAppend_plain stack (by simp [mayFollow, newFrame, tag]) rfl (by simp [newFrame])]
  rfl

/-- The first tree delta opens the root. -/
theorem xmlHandle_rootDelta {digger : Digger} {package : Frame} {older : List Frame}
    (stack : digger.stack = package :: older) (tag : package.tag = .deltaPkg) :
    xmlHandle digger (.start .treeDelta {}) = .ok { digger.call (.openRoot none) with
      stack := { newFrame .treeDelta {} with names := some [], baton := some digger.nextDir } ::
        { package with baton := some digger.nextDir } :: older
      nextDir := digger.nextDir + 1 } := by
  have started : startTreeDelta digger (newFrame .treeDelta {}) =
      .ok ({ digger.call (.openRoot none) with
        stack := { package with baton := some digger.nextDir } :: older
        nextDir := digger.nextDir + 1 }, { newFrame .treeDelta {} with names := some [] }) := by
    rw [startTreeDelta, stack]
    exact if_pos tag
  rw [xmlHandle, xmlHandleStart]
  simp only [started, bind, Except.bind]
  rw [doStackAppend_plain rfl (by simp [mayFollow, newFrame, tag]) rfl (by simp [newFrame])]
  rfl

theorem xmlHandle_propDelta {digger : Digger} {inner : Frame} {older : List Frame}
    (dirfile : DirFile) (stack : digger.stack = inner :: older) (tag : inner.tag = innertag dirfile) :
    xmlHandle digger (.start .propDelta {}) = .ok { digger with
      stack := { newFrame .propDelta {} with baton := inner.baton } :: inner :: older
      currentPropdelta := some ⟨dirfile, [], []⟩ } := by
  have follows : mayFollow (newFrame .propDelta {}).tag inner.tag = true := by
    cases dirfile with
    | dir | file => simp [mayFollow, newFrame, tag, innertag]
  rw [xmlHandle_start (by simp) (doStackAppend_plain stack follows rfl (by simp [newFrame]))]
  show doBeginPropdelta _ inner = _
  cases dirfile with
  | dir | file =>
      rw [doBeginPropdelta, tag]
      rfl

theorem outertag_plain (addopen : AddOpen) :
    outertag addopen ∈ [Tag.add, .opened, .propDelta, .textDeltaRef] := by
  cases addopen with
  | add | opened => simp [outertag]

/-- A file element ends together with the entry around it. -/
theorem xmlParse_finishFile {digger : Digger} {inner entry : Frame} {older : List Frame}
    {addopen : AddOpen} (stack : digger.stack = inner :: entry :: older) (tag : inner.tag = .file)
    (entryTag : entry.tag = outertag addopen) :
    xmlParse [.finish .file, .finish (outertag addopen)] digger =
      .ok { doCloseFile digger inner with stack := older } := by
  have closed : endEvent digger inner (entry :: older) = doCloseFile digger inner := by
    rw [endEvent, tag]
  have remains : (doCloseFile digger inner).stack = inner :: entry :: older := by
    rw [← stack, doCloseFile]
    split <;> rfl
  rw [xmlParse_cons_ok (xmlHandle_finish _ stack tag), closed, xmlParse_singleton]
  apply xmlHandle_finish_plain _ _ entryTag (outertag_plain addopen)
  rw [Digger.pop, remains]
  rfl

/-- The file of the element waits for its text delta. -/
theorem xmlParse_finishDeferred {digger : Digger} {inner entry : Frame} {older : List Frame}
    {addopen : AddOpen} (id : Int) (stack : digger.stack = inner :: entry :: older)
    (tag : inner.tag = .file) (entryTag : entry.tag = outertag addopen) :
    xmlParse [.start .textDeltaRef { id := some id }, .finish .textDeltaRef, .finish .file,
        .finish (outertag addopen)] digger =
      .ok { digger with
        stack := older
        svndiffParser := false
        fileBaton := none
        postfixHash := Function.update digger.postfixHash id inner.fileBaton } := by
  have hashedTag : { inner with hashed := true }.tag = .file := tag
  rw [xmlParse_cons_ok (xmlHandle_textDeltaRef id stack),
    xmlParse_cons_ok (xmlHandle_finish_plain .textDeltaRef rfl rfl (by simp))]
  exact xmlParse_finishFile rfl hashedTag entryTag

end Parse

section Related

/-- A tree delta of a directory does not hold names that the directory has not. -/
structure IsTree (dir : OpenDir) (frame : Frame) : Prop where
  tag : frame.tag = .treeDelta
  baton : frame.baton = some dir.baton
  names : ∃ names, frame.names = some names ∧ names ⊆ dir.names

structure IsPackage (frame : Frame) : Prop where
  tag : frame.tag = .deltaPkg
  path : frame.ancestorPath.isSome
  revision : frame.ancestorRevision.isSome

/-- Around the content of a directory are its own elements and the ones of the outer directories. -/
inductive Nest (dirs : List (Option AddOpen)) : OpenDir → List OpenDir → List Frame → Prop
  | root {dir : OpenDir} {frame : Frame} (first : dir.baton = 0) (package : IsPackage frame)
      (baton : frame.baton = some dir.baton) (made : dirs[dir.baton]? = some none) :
      Nest dirs dir [] [frame]
  | dir {dir parent : OpenDir} {outer : List OpenDir} {addopen : AddOpen}
      {inner entry tree : Frame} {frames : List Frame} (later : dir.baton ≠ 0)
      (made : dirs[dir.baton]? = some (some addopen)) (tag : inner.tag = .dir)
      (baton : inner.baton = some dir.baton) (entryTag : entry.tag = outertag addopen)
      (isTree : IsTree parent tree) (nest : Nest dirs parent outer frames) :
      Nest dirs dir (parent :: outer) (inner :: entry :: tree :: frames)

theorem Nest.inner {dirs : List (Option AddOpen)} {dir : OpenDir} {outer : List OpenDir}
    {frames : List Frame} (nest : Nest dirs dir outer frames) (below : outer ≠ []) :
    ∃ inner older, frames = inner :: older ∧ inner.tag = .dir ∧ inner.baton = some dir.baton := by
  cases nest with
  | root => contradiction
  | dir _ _ tag baton => exact ⟨_, _, rfl, tag, baton⟩

/-- What is known of a file that waits for its text. -/
def Waits (eb : EditBaton) (digger : Digger) (file : Nat) : Prop :=
  ∃ addopen id, eb.files[file]? = some ⟨addopen, id, true⟩ ∧ 0 < id ∧
    id < (eb.txdeltaIdCounter : Int) ∧ digger.postfixHash id = some file

/-- What is known of the file that is worked on. -/
def Works (eb : EditBaton) (digger : Digger) (file : Nat) (texted : Bool) : Prop :=
  eb.curfile = some file ∧ digger.fileBaton = some file ∧
    ∃ addopen, eb.files[file]? = some ⟨addopen, if texted then -1 else 0, false⟩

structure Books (tree : Editing) (eb : EditBaton) (digger : Digger) : Prop where
  nodup : tree.deferred.Nodup
  outer : ∀ dir ∈ tree.outer, dir.subdirs = true ∧ dir.names ≠ []
  dirs : eb.dirs.length = tree.nextDir
  files : eb.files.length = tree.nextFile
  counter : 0 < eb.txdeltaIdCounter
  deferred : ∀ file ∈ tree.deferred, Waits eb digger file
  current : ∀ file texted, tree.current = some (file, texted) → Works eb digger file texted
  nextFile : digger.nextFile = tree.nextFile
  dirBaton : digger.dirBaton =
    if tree.outer = [] ∨ tree.dir.subdirs then none else some tree.dir.baton

/-- The frames around the content of the innermost directory. -/
structure Inside (tree : Editing) (eb : EditBaton) (digger : Digger) (frames : List Frame) :
    Prop where
  nest : Nest eb.dirs tree.dir tree.outer frames
  nextDir : digger.nextDir = tree.nextDir

/-- The frames around the content of a file. -/
inductive InsideFile (tree : Editing) (eb : EditBaton) (digger : Digger) (file : Nat) :
    List Frame → Prop
  | frames {inner entry frame : Frame} {frames : List Frame} (tag : inner.tag = .file)
      (baton : inner.fileBaton = some file) (fresh : inner.hashed = false)
      (entryTag : ∀ fb, eb.files[file]? = some fb → entry.tag = outertag fb.addopen)
      (isTree : IsTree tree.dir frame) (inside : Inside tree eb digger frames) :
      InsideFile tree eb digger file (inner :: entry :: frame :: frames)

/-- The element that the writer is in, and the frames of the parser. The root has begun with its
tree delta. -/
inductive At (tree : Editing) (eb : EditBaton) (digger : Digger) : Bool → Prop
  | package {frame : Frame} (elem : eb.elem = .dir) (root : tree = .root)
      (stack : digger.stack = [frame]) (package : IsPackage frame) (made : eb.dirs = [none])
      (nextDir : digger.nextDir = 0) : At tree eb digger false
  | dir (elem : eb.elem = .dir) (noFile : tree.current = none) (below : tree.outer ≠ [])
      (inside : Inside tree eb digger digger.stack) : At tree eb digger true
  | dirProps {props : Frame} {frames : List Frame} (elem : eb.elem = .dirPropDelta)
      (noFile : tree.current = none) (below : tree.outer ≠ [])
      (stack : digger.stack = props :: frames) (tag : props.tag = .propDelta)
      (propdelta : digger.currentPropdelta = some ⟨.dir, [], []⟩)
      (inside : Inside tree eb digger frames) : At tree eb digger true
  | tree {frame : Frame} {frames : List Frame} (elem : eb.elem = .treeDelta)
      (noFile : tree.current = none) (stack : digger.stack = frame :: frames)
      (isTree : IsTree tree.dir frame) (inside : Inside tree eb digger frames) :
      At tree eb digger true
  | file {file : Nat} {texted : Bool} (elem : eb.elem = .file)
      (current : tree.current = some (file, texted))
      (inside : InsideFile tree eb digger file digger.stack) : At tree eb digger true
  | fileProps {file : Nat} {texted : Bool} {props : Frame} {frames : List Frame}
      (elem : eb.elem = .filePropDelta) (current : tree.current = some (file, texted))
      (stack : digger.stack = props :: frames) (tag : props.tag = .propDelta)
      (propdelta : digger.currentPropdelta = some ⟨.file, [], []⟩)
      (inside : InsideFile tree eb digger file frames) : At tree eb digger true

structure Related (tree : Editing) (eb : EditBaton) (digger : Digger) (begun : Bool) : Prop where
  books : Books tree eb digger
  place : At tree eb digger begun

/-- The parser follows what was written and makes the calls that are heard. -/
def Reaches (digger : Digger) (output : Output) (tree : Editing) (begun : Bool)
    (heard : List Call) : Prop :=
  ∃ next, xmlParse output.2 digger = .ok next ∧ Related tree output.1 next begun ∧
    next.calls = digger.calls ++ heard

theorem Reaches.trans {digger : Digger} {output more : Output} {tree last : Editing}
    {begun ends : Bool} {heard rest : List Call} (first : Reaches digger output tree begun heard)
    (second : ∀ next, Related tree output.1 next begun → Reaches next more last ends rest) :
    Reaches digger (more.1, output.2 ++ more.2) last ends (heard ++ rest) := by
  obtain ⟨middle, parsed, related, calls⟩ := first
  obtain ⟨next, parsedMore, relatedMore, callsMore⟩ := second middle related
  refine ⟨next, (xmlParse_append_ok parsed).trans parsedMore, relatedMore, ?_⟩
  rw [callsMore, calls, List.append_assoc]

theorem Related.stays {tree : Editing} {eb : EditBaton} {digger : Digger} {begun : Bool}
    (related : Related tree eb digger begun) : Reaches digger (eb, []) tree begun [] :=
  ⟨digger, rfl, related, (List.append_nil _).symm⟩

end Related

section Unwind

variable {tree left : Editing} {eb : EditBaton} {digger : Digger} {begun : Bool} {elem : ElemType}

theorem unwindFileProps_reaches (related : Related tree eb digger begun)
    (other : elem ≠ .filePropDelta) :
    Reaches digger (unwindFileProps eb elem) tree begun [] ∧
      (unwindFileProps eb elem).1.elem ≠ .filePropDelta := by
  by_cases inside : eb.elem = .filePropDelta
  · rw [unwindFileProps, if_pos ⟨inside, other⟩]
    refine ⟨?_, by simp⟩
    cases related.place with
    | fileProps _ current stack tag _ insideFile =>
        refine ⟨_, (xmlParse_singleton _ _).trans (xmlHandle_finish_plain _ stack tag (by simp)),
          ⟨{ related.books with }, ?_⟩, (List.append_nil _).symm⟩
        cases insideFile with
        | frames tag baton fresh entryTag isTree inside =>
            exact .file rfl current (.frames tag baton fresh entryTag isTree { inside with })
    | package elem | dir elem | dirProps elem | tree elem | file elem =>
        rw [elem] at inside
        cases inside
  · rw [unwindFileProps, if_neg fun both => inside both.1]
    exact ⟨related.stays, inside⟩

/-- The id of a deferred text delta is a new one. -/
theorem Waits.keep {file other : Nat} {fb : FileBaton} (waits : Waits eb digger other)
    (found : eb.files[file]? = some fb) (isOpen : fb.closed = false) :
    Waits { eb with
      elem := .treeDelta
      curfile := none
      txdeltaIdCounter := eb.txdeltaIdCounter + 1
      files := eb.files.set file { fb with txdeltaId := eb.txdeltaIdCounter, closed := true } }
      { digger with
        postfixHash := Function.update digger.postfixHash eb.txdeltaIdCounter (some file) } other := by
  obtain ⟨addopen, id, there, positive, below, stored⟩ := waits
  have apart : file ≠ other := by
    intro same
    rw [same, there] at found
    rw [← Option.some.inj found] at isOpen
    cases isOpen
  refine ⟨addopen, id, ?_, positive, ?_, ?_⟩
  · rw [List.getElem?_set_ne apart]
    exact there
  · push_cast
    omega
  · show Function.update _ _ _ id = _
    rw [Function.update_of_ne (by omega)]
    exact stored

theorem closeElement_reaches {file : Nat} {fb : FileBaton} (related : Related tree eb digger begun)
    (elem : eb.elem = .file) (current : tree.current = some (file, false))
    (found : eb.files[file]? = some fb) (untexted : fb.txdeltaId = 0) (isOpen : fb.closed = false) :
    Reaches digger (closeElement eb file fb)
      { tree with current := none, deferred := file :: tree.deferred } begun [] := by
  cases related.place with
  | file _ same insideFile =>
      rw [current] at same
      obtain ⟨rfl, rfl⟩ := same
      generalize framesAre : digger.stack = stack at insideFile
      cases insideFile with
      | frames tag baton fresh entryTag isTree inside =>
          rw [closeElement, if_pos untexted]
          have books := related.books
          refine ⟨_, xmlParse_finishDeferred _ framesAre tag (entryTag fb found), ⟨?_, ?_⟩,
            (List.append_nil _).symm⟩
          · rw [baton]
            refine ⟨?_, books.outer, books.dirs, ?_, Nat.succ_pos _, ?_, ?_, books.nextFile,
              books.dirBaton⟩
            · refine List.nodup_cons.mpr ⟨?_, books.nodup⟩
              intro member
              obtain ⟨_, _, there, -⟩ := books.deferred file member
              rw [found] at there
              rw [Option.some.inj there] at isOpen
              cases isOpen
            · rw [List.length_set]
              exact books.files
            · intro other member
              rcases List.mem_cons.mp member with rfl | before
              · obtain ⟨below, -⟩ := List.getElem?_eq_some_iff.mp found
                refine ⟨fb.addopen, eb.txdeltaIdCounter, ?_, by exact_mod_cast books.counter, ?_, ?_⟩
                · exact List.getElem?_set_self below
                · push_cast
                  omega
                · exact Function.update_self _ _ _
              · exact (books.deferred other before).keep found isOpen
            · exact fun _ _ none => by cases none
          · exact .tree rfl rfl rfl isTree { inside with }
  | package elem' | dir elem' | dirProps elem' | tree elem' | fileProps elem' =>
      rw [elem] at elem'
      cases elem'

theorem unwindFile_reaches (related : Related tree eb digger begun)
    (noProps : eb.elem ≠ .filePropDelta) (other : elem ≠ .file ∧ elem ≠ .filePropDelta)
    (leaves : tree.leaveFile = some left) :
    ∃ output, unwindFile eb elem = some output ∧ Reaches digger output left begun [] ∧
      output.1.elem ≠ .file ∧ output.1.elem ≠ .filePropDelta := by
  by_cases inside : eb.elem = .file
  · cases related.place with
    | @file file texted _ current insideFile =>
        obtain ⟨curfile, fileBaton, addopen, found⟩ := related.books.current _ _ current
        cases texted with
        | true =>
            rw [Editing.leaveFile, current] at leaves
            cases leaves
        | false =>
            rw [Editing.leaveFile, current] at leaves
            obtain rfl := Option.some.inj leaves
            refine ⟨_, ?_, closeElement_reaches related inside current found rfl rfl, ?_, ?_⟩
            · rw [unwindFile, if_pos ⟨inside, other⟩, curfile]
              simp [found]
            · simp [closeElement]
            · simp [closeElement]
    | package elem | dir elem | dirProps elem | tree elem | fileProps elem =>
        rw [elem] at inside
        cases inside
  · refine ⟨(eb, []), ?_, ?_, inside, noProps⟩
    · rw [unwindFile, if_neg fun both => inside both.1]
    · have noFile : tree.current = none := by
        cases related.place with
        | package _ root => rw [root]; rfl
        | dir _ noFile | dirProps _ noFile | tree _ noFile => exact noFile
        | file elem | fileProps elem => contradiction
      rw [Editing.leaveFile, noFile] at leaves
      obtain rfl := Option.some.inj leaves
      exact related.stays

/-- Below the root the end of a tree delta closes no directory. -/
theorem unwindTree_reaches (related : Related tree eb digger begun) (below : tree.outer ≠ [])
    (wanted : elem = .dir ∨ elem = .dirPropDelta) :
    Reaches digger (unwindTree eb elem) tree begun [] ∧
      (unwindTree eb elem).1.elem ≠ .treeDelta := by
  by_cases inside : eb.elem = .treeDelta
  · rw [unwindTree, if_pos ⟨inside, wanted⟩]
    refine ⟨?_, by simp⟩
    cases related.place with
    | @tree frame frames _ noFile stack isTree within =>
        refine ⟨{ digger with stack := frames }, ?_,
          ⟨{ related.books with }, .dir rfl noFile below { within with }⟩, (List.append_nil _).symm⟩
        obtain ⟨inner, older, rfl, tag, -⟩ := within.nest.inner below
        rw [xmlParse_singleton, xmlHandle_finish _ stack isTree.tag, endEvent, isTree.tag]
        simp [tag, Digger.pop, stack]
    | package elem | dir elem | dirProps elem | file elem | fileProps elem =>
        rw [elem] at inside
        cases inside
  · rw [unwindTree, if_neg fun both => inside both.1]
    exact ⟨related.stays, inside⟩

theorem unwindDirProps_reaches (related : Related tree eb digger begun)
    (other : elem ≠ .dirPropDelta) :
    Reaches digger (unwindDirProps eb elem) tree begun [] := by
  by_cases inside : eb.elem = .dirPropDelta
  · rw [unwindDirProps, if_pos ⟨inside, other⟩]
    cases related.place with
    | dirProps _ noFile below stack tag _ within =>
        exact ⟨_, (xmlParse_singleton _ _).trans (xmlHandle_finish_plain _ stack tag (by simp)),
          ⟨{ related.books with }, .dir rfl noFile below { within with }⟩, (List.append_nil _).symm⟩
    | package elem | dir elem | tree elem | file elem | fileProps elem =>
        rw [elem] at inside
        cases inside
  · rw [unwindDirProps, if_neg fun both => inside both.1]
    exact related.stays

/-- The root is opened together with its tree delta. -/
theorem windTree_reaches (related : Related tree eb digger begun)
    (near : eb.elem = .dir ∨ eb.elem = .treeDelta) :
    Reaches digger (windTree eb .treeDelta) tree true (if begun then [] else [.openRoot none]) := by
  cases related.place with
  | package elem root stack package made nextDir =>
      rw [windTree, if_pos ⟨elem, rfl⟩]
      refine ⟨_, (xmlParse_singleton _ _).trans (xmlHandle_rootDelta stack package.tag),
        ⟨{ related.books with }, ?_⟩, rfl⟩
      refine .tree rfl (by rw [root]; rfl) rfl ⟨rfl, ?_, [], rfl, List.nil_subset _⟩ ⟨?_, ?_⟩
      · simp [root, nextDir, Editing.root, OpenDir.opened]
      · rw [root]
        refine .root rfl { package with } ?_ (by rw [made]; rfl)
        simp [nextDir, Editing.root, OpenDir.opened]
      · simp [root, nextDir, Editing.root]
  | dir elem noFile below within =>
      rw [windTree, if_pos ⟨elem, rfl⟩]
      obtain ⟨inner, older, stack, tag, baton⟩ := within.nest.inner below
      refine ⟨_, (xmlParse_singleton _ _).trans (xmlHandle_treeDelta stack tag),
        ⟨{ related.books with }, ?_⟩, (List.append_nil _).symm⟩
      exact .tree rfl noFile rfl ⟨rfl, baton, [], rfl, List.nil_subset _⟩
        ⟨stack ▸ within.nest, within.nextDir⟩
  | tree elem =>
      rw [windTree, if_neg (by simp [elem])]
      exact related.stays
  | dirProps elem | file elem | fileProps elem =>
      rw [elem] at near
      simp at near

/-- The file that was worked on is left. -/
theorem unwindFiles_reaches (related : Related tree eb digger begun)
    (leaves : tree.leaveFile = some left) (other : elem ≠ .file ∧ elem ≠ .filePropDelta) :
    ∃ output, unwindFile (unwindFileProps eb elem).1 elem = some output ∧
      Reaches digger (output.1, (unwindFileProps eb elem).2 ++ output.2) left begun [] ∧
      output.1.elem ≠ .file ∧ output.1.elem ≠ .filePropDelta := by
  obtain ⟨props, noProps⟩ := unwindFileProps_reaches related other.2
  obtain ⟨next, parsed, middle, calls⟩ := props
  obtain ⟨output, unwound, file, outside⟩ := unwindFile_reaches middle noProps other leaves
  refine ⟨output, unwound, ?_, outside⟩
  obtain ⟨final, parsedFile, relatedFile, callsFile⟩ := file
  refine ⟨final, (xmlParse_append_ok parsed).trans parsedFile, relatedFile, ?_⟩
  rw [callsFile, calls, List.append_nil]

theorem At.near (place : At tree eb digger begun) (noFile : eb.elem ≠ .file)
    (noProps : eb.elem ≠ .filePropDelta) :
    eb.elem = .dir ∨ eb.elem = .dirPropDelta ∨ eb.elem = .treeDelta := by
  cases place with
  | package elem | dir elem => exact .inl elem
  | dirProps elem => exact .inr (.inl elem)
  | tree elem => exact .inr (.inr elem)
  | file elem | fileProps elem => contradiction

theorem unwindTree_elem (wanted : elem = .dir ∨ elem = .dirPropDelta)
    (near : eb.elem = .dir ∨ eb.elem = .dirPropDelta ∨ eb.elem = .treeDelta) :
    (unwindTree eb elem).1.elem = .dir ∨ (unwindTree eb elem).1.elem = .dirPropDelta := by
  rcases near with inside | inside | inside <;> simp [unwindTree, inside, wanted]

theorem unwindDirProps_elem (other : elem ≠ .dirPropDelta)
    (near : eb.elem = .dir ∨ eb.elem = .dirPropDelta ∨ eb.elem = .treeDelta) :
    (unwindDirProps eb elem).1.elem = .dir ∨ (unwindDirProps eb elem).1.elem = .treeDelta := by
  rcases near with inside | inside | inside <;> simp [unwindDirProps, inside, other]

theorem windTree_elem (near : eb.elem = .dir ∨ eb.elem = .treeDelta) :
    (windTree eb .treeDelta).1.elem = .treeDelta := by
  rcases near with inside | inside <;> simp [windTree, inside]

theorem getToElem_treeDelta (related : Related tree eb digger begun)
    (leaves : tree.leaveFile = some left) :
    ∃ output, getToElem eb .treeDelta = some output ∧ output.1.elem = .treeDelta ∧
      Reaches digger output left true (if begun then [] else [.openRoot none]) := by
  obtain ⟨output, unwound, files, noFile, noProps⟩ := unwindFiles_reaches related leaves
    (show ElemType.treeDelta ≠ .file ∧ ElemType.treeDelta ≠ .filePropDelta by simp)
  have sameTree : unwindTree output.1 .treeDelta = (output.1, []) := if_neg (by simp)
  have sameProps : ∀ eb, windProps eb .treeDelta = (eb, []) := fun eb => if_neg (by simp)
  have near : output.1.elem = .dir ∨ output.1.elem = .dirPropDelta ∨ output.1.elem = .treeDelta := by
    obtain ⟨next, -, middle, -⟩ := files
    exact middle.place.near noFile noProps
  have nearTree := unwindDirProps_elem (show ElemType.treeDelta ≠ .dirPropDelta by simp) near
  have reached := windTree_elem nearTree
  refine ⟨_, ?_, ?_, (files.trans fun next middle => unwindDirProps_reaches middle
    (show ElemType.treeDelta ≠ .dirPropDelta by simp)).trans fun next middle =>
      windTree_reaches middle nearTree⟩
  · simp only [getToElem, unwound, bind, Option.bind, sameTree, sameProps, reached, if_true,
      List.nil_append, List.append_nil, List.append_assoc]
  · exact reached

theorem getToElem_dir (related : Related tree eb digger begun)
    (leaves : tree.leaveFile = some left) (below : left.outer ≠ []) :
    ∃ output, getToElem eb .dir = some output ∧ output.1.elem = .dir ∧
      Reaches digger output left begun [] := by
  obtain ⟨output, unwound, files, noFile, noProps⟩ := unwindFiles_reaches related leaves
    (show ElemType.dir ≠ .file ∧ ElemType.dir ≠ .filePropDelta by simp)
  have near : output.1.elem = .dir ∨ output.1.elem = .dirPropDelta ∨ output.1.elem = .treeDelta := by
    obtain ⟨next, -, middle, -⟩ := files
    exact middle.place.near noFile noProps
  have nearDir := unwindTree_elem (.inl rfl) near
  have reached : (unwindDirProps (unwindTree output.1 .dir).1 .dir).1.elem = .dir := by
    rcases nearDir with inside | inside <;> simp [unwindDirProps, inside]
  have sameTree : ∀ eb, windTree eb .dir = (eb, []) := fun eb => if_neg (by simp)
  have sameProps : ∀ eb, windProps eb .dir = (eb, []) := fun eb => if_neg (by simp)
  refine ⟨_, ?_, ?_, (files.trans fun next middle =>
    (unwindTree_reaches middle below (.inl rfl)).1).trans fun next middle =>
      unwindDirProps_reaches middle (show ElemType.dir ≠ .dirPropDelta by simp)⟩
  · simp only [getToElem, unwound, bind, Option.bind, sameTree, sameProps, reached, if_true,
      List.append_nil, List.append_assoc]
  · exact reached

theorem windProps_reaches_dir (related : Related tree eb digger begun) (below : tree.outer ≠ [])
    (near : eb.elem = .dir ∨ eb.elem = .dirPropDelta) :
    Reaches digger (windProps eb .dirPropDelta) tree begun [] := by
  cases related.place with
  | package elem root =>
      rw [root] at below
      contradiction
  | dir elem noFile _ within =>
      rw [windProps, if_pos (.inl ⟨elem, rfl⟩)]
      obtain ⟨inner, older, stack, tag, -⟩ := within.nest.inner below
      refine ⟨_, (xmlParse_singleton _ _).trans (xmlHandle_propDelta .dir stack tag),
        ⟨{ related.books with }, ?_⟩, (List.append_nil _).symm⟩
      exact .dirProps rfl noFile below rfl rfl rfl ⟨stack ▸ within.nest, within.nextDir⟩
  | dirProps elem =>
      rw [windProps, if_neg (by simp [elem])]
      exact related.stays
  | tree elem | file elem | fileProps elem =>
      rw [elem] at near
      simp at near

theorem getToElem_dirPropDelta (related : Related tree eb digger begun)
    (leaves : tree.leaveFile = some left) (below : left.outer ≠ []) :
    ∃ output, getToElem eb .dirPropDelta = some output ∧ output.1.elem = .dirPropDelta ∧
      Reaches digger output left begun [] := by
  obtain ⟨output, unwound, files, noFile, noProps⟩ := unwindFiles_reaches related leaves
    (show ElemType.dirPropDelta ≠ .file ∧ ElemType.dirPropDelta ≠ .filePropDelta by simp)
  have near : output.1.elem = .dir ∨ output.1.elem = .dirPropDelta ∨ output.1.elem = .treeDelta := by
    obtain ⟨next, -, middle, -⟩ := files
    exact middle.place.near noFile noProps
  have nearDir := unwindTree_elem (.inr rfl) near
  have reached : (windProps (unwindTree output.1 .dirPropDelta).1 .dirPropDelta).1.elem =
      .dirPropDelta := by
    rcases nearDir with inside | inside <;> simp [windProps, inside]
  have sameProps : ∀ eb, unwindDirProps eb .dirPropDelta = (eb, []) := fun eb => if_neg (by simp)
  have sameTree : ∀ eb, windTree eb .dirPropDelta = (eb, []) := fun eb => if_neg (by simp)
  refine ⟨_, ?_, ?_, (files.trans fun next middle =>
    (unwindTree_reaches middle below (.inr rfl)).1).trans fun next middle =>
      windProps_reaches_dir middle below nearDir⟩
  · simp only [getToElem, unwound, bind, Option.bind, sameTree, sameProps, reached, if_true,
      List.append_nil, List.append_assoc]
  · exact reached

theorem getToElem_file {file : Nat} {texted : Bool} (related : Related tree eb digger begun)
    (current : tree.current = some (file, texted)) :
    ∃ output, getToElem eb .file = some output ∧ output.1.elem = .file ∧
      output.1.files = eb.files ∧ Reaches digger output tree begun [] := by
  obtain ⟨props, -⟩ := unwindFileProps_reaches related
    (show ElemType.file ≠ .filePropDelta by simp)
  have sameFiles : (unwindFileProps eb .file).1.files = eb.files := by
    rw [unwindFileProps]
    split <;> rfl
  have reached : (unwindFileProps eb .file).1.elem = .file := by
    cases related.place with
    | file elem | fileProps elem => simp [unwindFileProps, elem]
    | package _ root =>
        rw [root] at current
        cases current
    | dir _ noFile | dirProps _ noFile | tree _ noFile =>
        rw [current] at noFile
        cases noFile
  refine ⟨_, ?_, reached, sameFiles, props⟩
  simp [getToElem, unwindFile, unwindTree, unwindDirProps, windTree, windProps, reached]

theorem getToElem_filePropDelta {file : Nat} {texted : Bool}
    (related : Related tree eb digger begun) (current : tree.current = some (file, texted)) :
    ∃ output, getToElem eb .filePropDelta = some output ∧ output.1.elem = .filePropDelta ∧
      Reaches digger output tree begun [] := by
  cases related.place with
  | file elem same within =>
      refine ⟨({ eb with elem := .filePropDelta }, [.start .propDelta {}]), ?_, rfl, ?_⟩
      · simp [getToElem, unwindFileProps, unwindFile, unwindTree, unwindDirProps, windTree,
          windProps, elem]
      · generalize framesAre : digger.stack = stack at within
        cases within with
        | frames tag baton fresh entryTag isTree inside =>
            exact ⟨_, (xmlParse_singleton _ _).trans (xmlHandle_propDelta .file framesAre tag),
              ⟨{ related.books with }, .fileProps rfl same rfl rfl rfl
                (.frames tag baton fresh entryTag isTree { inside with })⟩,
              (List.append_nil _).symm⟩
  | fileProps elem =>
      refine ⟨(eb, []), ?_, elem, related.stays⟩
      simp [getToElem, unwindFileProps, unwindFile, unwindTree, unwindDirProps, windTree,
        windProps, elem]
  | package _ root =>
      rw [root] at current
      cases current
  | dir _ noFile | dirProps _ noFile | tree _ noFile =>
      rw [current] at noFile
      cases noFile

end Unwind

section Entries

/-- Nothing of an ancestry is missing. -/
def Complete (ancestry : Option Bytes × Revision) : Prop :=
  ancestry.1.isSome ∧ ancestry.2.isSome

theorem complete_ite {path : Option Bytes} {revision : Revision} {rest : Option Bytes × Revision}
    (otherwise : ¬(path.isSome ∧ revision.isSome) → Complete rest) :
    Complete (if path.isSome ∧ revision.isSome then (path, revision) else rest) := by
  split
  · assumption
  · exact otherwise ‹_›

theorem deriveFrom_complete {name : Bytes} {older : List Frame}
    (found : ∃ frame ∈ older, frame.ancestorPath.isSome ∧ frame.ancestorRevision.isSome)
    (path : Option Bytes) (revision : Revision) :
    Complete (deriveFrom (some name) path revision older) := by
  induction older generalizing path revision with
  | nil =>
      obtain ⟨frame, member, -⟩ := found
      cases member
  | cons p older step =>
      rw [deriveFrom]
      apply complete_ite
      intro missing
      obtain ⟨frame, member, hasPath, hasRevision⟩ := found
      rcases List.mem_cons.mp member with rfl | later
      · obtain ⟨path', hasPath⟩ := Option.isSome_iff_exists.mp hasPath
        obtain ⟨revision', hasRevision⟩ := Option.isSome_iff_exists.mp hasRevision
        simp [hasPath, hasRevision] at missing
      · exact step ⟨frame, later, hasPath, hasRevision⟩ _ _

/-- Some frame knows the whole ancestry, and the entry has a name to extend it. -/
theorem maybeDeriveAncestry_content (frame : Frame) {entry : Frame} {older : List Frame} {name : Bytes}
    (named : entry.name = some name)
    (found : ∃ frame ∈ older, frame.ancestorPath.isSome ∧ frame.ancestorRevision.isSome) :
    ∃ path revision, maybeDeriveAncestry frame (entry :: older) =
      .ok { frame with ancestorPath := path, ancestorRevision := revision } := by
  rw [maybeDeriveAncestry]
  split
  · exact ⟨_, _, rfl⟩
  · split
    · exact ⟨_, _, rfl⟩
    · have derived : Complete (deriveFrom none frame.ancestorPath frame.ancestorRevision
          (entry :: older)) := by
        rw [deriveFrom, Option.none_or, named]
        exact complete_ite fun _ => deriveFrom_complete found _ _
      generalize deriveFrom none frame.ancestorPath frame.ancestorRevision (entry :: older) =
        result at derived
      obtain ⟨path, revision⟩ := result
      obtain ⟨hasPath, hasRevision⟩ := derived
      obtain ⟨path, rfl⟩ := Option.isSome_iff_exists.mp hasPath
      obtain ⟨revision, rfl⟩ := Option.isSome_iff_exists.mp hasRevision
      exact ⟨_, _, if_neg (by simp)⟩

theorem Nest.found {dirs : List (Option AddOpen)} {dir : OpenDir} {outer : List OpenDir}
    {frames : List Frame} (nest : Nest dirs dir outer frames) :
    ∃ frame ∈ frames, frame.ancestorPath.isSome ∧ frame.ancestorRevision.isSome := by
  induction nest with
  | root _ package => exact ⟨_, List.mem_cons_self, package.path, package.revision⟩
  | dir _ _ _ _ _ _ _ step =>
      obtain ⟨frame, member, known⟩ := step
      exact ⟨frame, by simp [member], known⟩

/-- The name of an entry is put down in its tree delta. -/
theorem xmlHandle_entry {digger : Digger} {frame : Frame} {frames : List Frame} {name : Bytes}
    {names : List Bytes} (addopen : AddOpen) (stack : digger.stack = frame :: frames)
    (tag : frame.tag = .treeDelta) (holds : frame.names = some names) (nonempty : name ≠ [])
    (fresh : name ∉ names) :
    xmlHandle digger (.start (outertag addopen) { name := some name }) = .ok { digger with
      stack := { newFrame (outertag addopen) { name := some name } with baton := frame.baton } ::
        { frame with names := some (name :: names) } :: frames } := by
  have checked : checkDirentNamespace frame (newFrame (outertag addopen) { name := some name }) =
      .ok { frame with names := some (name :: names) } := by
    have isEntry : ¬((newFrame (outertag addopen) { name := some name }).tag ≠ .add ∧
        (newFrame (outertag addopen) { name := some name }).tag ≠ .opened) := by
      cases addopen with
      | add | opened => simp [newFrame, outertag]
    rw [checkDirentNamespace, if_neg isEntry, holds]
    simp [newFrame, nonempty, fresh]
  have appended : doStackAppend digger (newFrame (outertag addopen) { name := some name }) =
      .ok { digger with
        stack := { newFrame (outertag addopen) { name := some name } with baton := frame.baton } ::
          { frame with names := some (name :: names) } :: frames } := by
    rw [doStackAppend, stack]
    simp only [checked, bind, Except.bind]
    cases addopen with
    | add | opened => simp [mayFollow, mayHaveAncestry, maybeDeriveAncestry, newFrame, outertag, tag]
  rw [xmlHandle_start (by cases addopen <;> simp [outertag]) appended]
  cases addopen with
  | add | opened =>
      rw [interpretFrame]
      simp [newFrame, outertag, tag]

/-- The content of an entry goes on the stack with some ancestry. -/
theorem doStackAppend_content {digger : Digger} {frame entry : Frame} {older : List Frame}
    {name : Bytes} {addopen : AddOpen} (dirfile : DirFile) (stack : digger.stack = entry :: older)
    (entryTag : entry.tag = outertag addopen) (named : entry.name = some name)
    (tag : frame.tag = innertag dirfile)
    (found : ∃ frame ∈ older, frame.ancestorPath.isSome ∧ frame.ancestorRevision.isSome) :
    ∃ path revision, doStackAppend digger frame = .ok { digger with
      stack := { frame with
        baton := entry.baton
        ancestorPath := path
        ancestorRevision := revision } :: entry :: older } := by
  obtain ⟨path, revision, derived⟩ :=
    maybeDeriveAncestry_content { frame with baton := entry.baton } named found
  refine ⟨path, revision, ?_⟩
  have follows : mayFollow frame.tag entry.tag = true ∧ mayHaveAncestry frame = true := by
    rw [tag, entryTag, mayHaveAncestry, tag]
    cases addopen with
    | add | opened =>
        cases dirfile with
        | dir | file => simp [mayFollow, outertag, innertag]
  have other : frame.tag ≠ .add ∧ frame.tag ≠ .opened := by
    rw [tag]
    cases dirfile with
    | dir | file => simp [innertag]
  rw [doStackAppend, stack]
  simp only [follows, and_self, if_true]
  rw [checkDirentNamespace, if_pos other]
  simp only [bind, Except.bind, derived]

theorem xmlHandle_file {digger : Digger} {entry : Frame} {older : List Frame} {name : Bytes}
    {addopen : AddOpen} (atts : Atts) (stack : digger.stack = entry :: older)
    (entryTag : entry.tag = outertag addopen) (named : entry.name = some name)
    (found : ∃ frame ∈ older, frame.ancestorPath.isSome ∧ frame.ancestorRevision.isSome) :
    ∃ path revision inner, xmlHandle digger (.start .file atts) =
      .ok { digger.call (.addOpen addopen .file name entry.baton path revision) with
        stack := inner :: entry :: older
        fileBaton := some digger.nextFile
        nextFile := digger.nextFile + 1 } ∧
      inner.tag = .file ∧ inner.fileBaton = some digger.nextFile ∧ inner.hashed = false := by
  obtain ⟨path, revision, appended⟩ := doStackAppend_content .file stack entryTag named
    (rfl : (newFrame .file atts).tag = .file) found
  rw [xmlHandle_start (by simp) appended]
  cases addopen with
  | add | opened =>
      rw [interpretFrame]
      simp only [entryTag, outertag, newFrame, doFileCallback, named]
      exact ⟨_, _, _, rfl, rfl, rfl, rfl⟩

theorem IsTree.add {dir : OpenDir} {frame : Frame} {names : List Bytes} (isTree : IsTree dir frame)
    (inNames : names ⊆ dir.names) (name : Bytes) :
    IsTree { dir with names := name :: dir.names } { frame with names := some (name :: names) } :=
  ⟨isTree.tag, isTree.baton, _, rfl, List.cons_subset_cons name inNames⟩

/-- An entry with its content, where the name was not used before. -/
theorem xmlParse_file {digger : Digger} {frame : Frame} {frames : List Frame} {dir : OpenDir}
    {name : Bytes} {addopen : AddOpen} (atts : Atts) (stack : digger.stack = frame :: frames)
    (isTree : IsTree dir frame) (nonempty : name ≠ []) (unused : name ∉ dir.names)
    (found : ∃ frame ∈ frames, frame.ancestorPath.isSome ∧ frame.ancestorRevision.isSome) :
    ∃ path revision inner entry tree, xmlParse
        [.start (outertag addopen) { name := some name }, .start .file atts] digger =
      .ok { digger.call (.addOpen addopen .file name (some dir.baton) path revision) with
        stack := inner :: entry :: tree :: frames
        fileBaton := some digger.nextFile
        nextFile := digger.nextFile + 1 } ∧
      inner.tag = .file ∧ inner.fileBaton = some digger.nextFile ∧ inner.hashed = false ∧
      entry.tag = outertag addopen ∧ IsTree { dir with names := name :: dir.names } tree := by
  obtain ⟨names, holds, inNames⟩ := isTree.names
  have entered := xmlHandle_entry addopen stack isTree.tag holds nonempty
    fun member => unused (inNames member)
  obtain ⟨known, member, complete⟩ := found
  let within : Digger := { digger with
    stack := { newFrame (outertag addopen) { name := some name } with baton := frame.baton } ::
      { frame with names := some (name :: names) } :: frames }
  obtain ⟨path, revision, inner, opened, innerTag, fileBaton, fresh⟩ := xmlHandle_file atts
    (show within.stack = _ from rfl) rfl rfl ⟨known, List.mem_cons_of_mem _ member, complete⟩
  refine ⟨path, revision, inner,
    { newFrame (outertag addopen) { name := some name } with baton := frame.baton }, _, ?_, innerTag, fileBaton, fresh, rfl,
    isTree.add inNames name⟩
  rw [xmlParse_cons_ok entered, xmlParse_singleton, ← isTree.baton]
  exact opened

theorem xmlHandle_dir {digger : Digger} {entry : Frame} {older : List Frame} {name : Bytes}
    {addopen : AddOpen} (atts : Atts) (stack : digger.stack = entry :: older)
    (entryTag : entry.tag = outertag addopen) (named : entry.name = some name)
    (found : ∃ frame ∈ older, frame.ancestorPath.isSome ∧ frame.ancestorRevision.isSome) :
    ∃ path revision inner, xmlHandle digger (.start .dir atts) =
      .ok { digger.call (.addOpen addopen .dir name entry.baton path revision) with
        stack := inner :: entry :: older
        dirBaton := some digger.nextDir
        nextDir := digger.nextDir + 1 } ∧
      inner.tag = .dir ∧ inner.baton = some digger.nextDir := by
  obtain ⟨path, revision, appended⟩ := doStackAppend_content .dir stack entryTag named
    (rfl : (newFrame .dir atts).tag = .dir) found
  rw [xmlHandle_start (by simp) appended]
  cases addopen with
  | add | opened =>
      rw [interpretFrame]
      simp only [entryTag, outertag, newFrame, doDirectoryCallback, named]
      exact ⟨_, _, _, rfl, rfl, rfl⟩

theorem xmlParse_dir {digger : Digger} {frame : Frame} {frames : List Frame} {dir : OpenDir}
    {name : Bytes} {addopen : AddOpen} (atts : Atts) (stack : digger.stack = frame :: frames)
    (isTree : IsTree dir frame) (nonempty : name ≠ []) (unused : name ∉ dir.names)
    (found : ∃ frame ∈ frames, frame.ancestorPath.isSome ∧ frame.ancestorRevision.isSome) :
    ∃ path revision inner entry tree, xmlParse
        [.start (outertag addopen) { name := some name }, .start .dir atts] digger =
      .ok { digger.call (.addOpen addopen .dir name (some dir.baton) path revision) with
        stack := inner :: entry :: tree :: frames
        dirBaton := some digger.nextDir
        nextDir := digger.nextDir + 1 } ∧
      inner.tag = .dir ∧ inner.baton = some digger.nextDir ∧
      entry.tag = outertag addopen ∧ IsTree { dir with names := name :: dir.names } tree := by
  obtain ⟨names, holds, inNames⟩ := isTree.names
  have entered := xmlHandle_entry addopen stack isTree.tag holds nonempty
    fun member => unused (inNames member)
  obtain ⟨known, member, complete⟩ := found
  let within : Digger := { digger with
    stack := { newFrame (outertag addopen) { name := some name } with baton := frame.baton } ::
      { frame with names := some (name :: names) } :: frames }
  obtain ⟨path, revision, inner, opened, innerTag, dirBaton⟩ := xmlHandle_dir atts
    (show within.stack = _ from rfl) rfl rfl ⟨known, List.mem_cons_of_mem _ member, complete⟩
  refine ⟨path, revision, inner,
    { newFrame (outertag addopen) { name := some name } with baton := frame.baton }, _, ?_, innerTag, dirBaton, rfl,
    isTree.add inNames name⟩
  rw [xmlParse_cons_ok entered, xmlParse_singleton, ← isTree.baton]
  exact opened

theorem xmlParse_delete {digger : Digger} {frame : Frame} {frames : List Frame} (name : Bytes)
    (revision : Revision) (stack : digger.stack = frame :: frames) (tag : frame.tag = .treeDelta) :
    xmlParse [.start .delete { name := some name, baseRev := revision }, .finish .delete] digger =
      .ok (digger.call (.deleteEntry name revision frame.baton)) := by
  have appended := doStackAppend_plain stack
    (show mayFollow (newFrame .delete { name := some name, baseRev := revision }).tag frame.tag by
      simp [mayFollow, newFrame, tag]) (by simp [mayHaveAncestry, newFrame]) (by simp [newFrame])
  have interpreted := xmlHandle_start (by simp) appended
  rw [interpretFrame] at interpreted
  simp only [newFrame, tag, doDeleteDirent] at interpreted
  rw [xmlParse_cons_ok interpreted, xmlParse_singleton, xmlHandle_finish .delete rfl rfl]
  cases digger
  cases stack
  simp [endEvent, tag, Digger.pop, Digger.call]

/-- An empty value is sent like no value. -/
def sent (value : Option Bytes) : Option Bytes := if value = some [] then none else value

def Digger.propBaton (digger : Digger) : DirFile → Baton
  | .file => digger.fileBaton
  | .dir => digger.dirBaton

theorem doPropDeltaCallback_eq {digger : Digger} {propdelta : Propdelta}
    (current : digger.currentPropdelta = some propdelta) :
    doPropDeltaCallback digger = { digger.call (.changeProp propdelta.kind
        (digger.propBaton propdelta.kind) propdelta.name (sent (some propdelta.value))) with
      currentPropdelta := some ⟨propdelta.kind, [], []⟩ } := by
  rw [doPropDeltaCallback, current]
  obtain ⟨kind, name, value⟩ := propdelta
  cases kind with
  | dir | file =>
      by_cases empty : value = []
      · simp [sent, empty, Digger.propBaton]
      · simp [sent, empty, Digger.propBaton]

theorem xmlParse_set {digger : Digger} {props : Frame} {older : List Frame} {kind : DirFile}
    (name value : Bytes) (stack : digger.stack = props :: older) (tag : props.tag = .propDelta)
    (propdelta : digger.currentPropdelta = some ⟨kind, [], []⟩) :
    xmlParse [.start .set { name := some name }, .text value, .finish .set] digger =
      .ok (digger.call (.changeProp kind (digger.propBaton kind) name (sent (some value)))) := by
  have appended := doStackAppend_plain stack
    (show mayFollow (newFrame .set { name := some name }).tag props.tag by
      simp [mayFollow, newFrame, tag]) rfl (by simp [newFrame])
  have interpreted := xmlHandle_start (by simp) appended
  rw [interpretFrame] at interpreted
  simp only [newFrame, tag, doBeginSetprop, propdelta] at interpreted
  rw [xmlParse_cons_ok interpreted, xmlParse_cons_ok rfl, xmlParse_singleton,
    xmlHandle_finish .set rfl rfl]
  cases digger
  cases stack
  cases propdelta
  cases kind with
  | dir | file => simp [endEvent, doPropDeltaCallback_eq, Digger.pop, Digger.call, Digger.propBaton]

theorem xmlParse_deleteProp {digger : Digger} {props : Frame} {older : List Frame} {kind : DirFile}
    (name : Bytes) (stack : digger.stack = props :: older) (tag : props.tag = .propDelta)
    (propdelta : digger.currentPropdelta = some ⟨kind, [], []⟩) :
    xmlParse [.start .delete { name := some name }, .finish .delete] digger =
      .ok (digger.call (.changeProp kind (digger.propBaton kind) name none)) := by
  have appended := doStackAppend_plain stack
    (show mayFollow (newFrame .delete { name := some name }).tag props.tag by
      simp [mayFollow, newFrame, tag]) rfl (by simp [newFrame])
  have interpreted := xmlHandle_start (by simp) appended
  rw [interpretFrame] at interpreted
  simp only [newFrame, tag, doDeleteProp, propdelta] at interpreted
  rw [xmlParse_cons_ok interpreted, xmlParse_singleton, xmlHandle_finish .delete rfl rfl]
  cases digger
  cases stack
  cases propdelta
  cases kind with
  | dir | file =>
      simp [endEvent, tag, doPropDeltaCallback_eq, Digger.pop, Digger.call, Digger.propBaton, sent]

end Entries

section Texts

theorem handleWindow_last {digger : Digger} {before : List Call} {file : Baton}
    {handled : List (Option TxdeltaWindow)} (window : Option TxdeltaWindow)
    (last : digger.calls = before ++ [.applyTextdelta file handled]) :
    handleWindow digger window =
      { digger with calls := before ++ [.applyTextdelta file (handled ++ [window])] } := by
  rw [handleWindow, last, List.getLast?_concat, List.dropLast_concat]

/-- The windows go to the handler of the last text delta. -/
theorem xmlParse_windows {digger : Digger} {frame : Frame} {older : List Frame}
    (before : List Call) (file : Baton) (stack : digger.stack = frame :: older)
    (tag : frame.tag = .textDelta) (decodes : digger.svndiffParser = true)
    (windows : List TxdeltaWindow) (handled : List (Option TxdeltaWindow)) :
    xmlParse (windows.map .window)
        { digger with calls := before ++ [.applyTextdelta file handled] } =
      .ok { digger with calls := before ++ [.applyTextdelta file (handled ++ windows.map some)] } := by
  induction windows generalizing handled with
  | nil =>
      rw [List.map_nil, List.map_nil, List.append_nil]
      rfl
  | cons window windows step =>
      have handles : xmlHandle { digger with calls := before ++ [.applyTextdelta file handled] }
          (.window window) = .ok { digger with
            calls := before ++ [.applyTextdelta file (handled ++ [some window])] } := by
        show xmlHandleData _ (.window window) = _
        rw [xmlHandleData]
        simp only [stack, tag, decodes, if_true]
        rw [handleWindow_last _ rfl]
      rw [List.map_cons, xmlParse_cons_ok handles, step, List.map_cons, List.append_assoc]
      rfl

theorem exists_map_some {α : Type} {options : List (Option α)} (full : none ∉ options) :
    ∃ values : List α, options = values.map some := by
  induction options with
  | nil => exact ⟨[], rfl⟩
  | cons option options step =>
      rw [List.mem_cons, not_or] at full
      obtain ⟨value, rfl⟩ := Option.ne_none_iff_exists'.mp fun none => full.1 none.symm
      obtain ⟨values, rfl⟩ := step full.2
      exact ⟨value :: values, rfl⟩

theorem WholeStream.split {handled : List (Option TxdeltaWindow)} (whole : WholeStream handled) :
    ∃ windows : List TxdeltaWindow, handled = windows.map some ++ [none] := by
  obtain ⟨windows, same⟩ := exists_map_some whole.2
  refine ⟨windows, ?_⟩
  rw [← same]
  exact (List.dropLast_append_getLast? none whole.1).symm

theorem xmlParse_stream {digger : Digger} {frame : Frame} {older : List Frame} (file : Baton)
    {handled : List (Option TxdeltaWindow)} (stack : digger.stack = frame :: older)
    (tag : frame.tag = .textDelta) (decodes : digger.svndiffParser = true)
    (whole : WholeStream handled) :
    xmlParse (handled.map writeWindow) (digger.call (.applyTextdelta file [])) =
      .ok (if frame.refId.isSome then doCloseFile (digger.call (.applyTextdelta file handled)) frame
        else digger.call (.applyTextdelta file handled)).pop := by
  obtain ⟨windows, rfl⟩ := whole.split
  have parsed := xmlParse_windows digger.calls file stack tag decodes windows []
  have ends : xmlHandle { digger with
      calls := digger.calls ++ [.applyTextdelta file ([] ++ windows.map some)] }
      (.finish .textDelta) = _ := xmlHandle_finish _ stack tag
  rw [List.map_append, List.map_map, show writeWindow ∘ some = .window from rfl, Digger.call,
    xmlParse_append_ok parsed, List.map_singleton, xmlParse_singleton, writeWindow, ends, endEvent, tag]
  simp only [endTextDelta, decodes, if_true]
  rw [handleWindow_last none rfl]
  simp [Digger.call, decodes]

theorem xmlParse_inlineText {digger : Digger} {inner : Frame} {older : List Frame}
    {handled : List (Option TxdeltaWindow)} (whole : WholeStream handled)
    (stack : digger.stack = inner :: older) (tag : inner.tag = .file) :
    xmlParse (.start .textDelta {} :: handled.map writeWindow) digger =
      .ok { digger.call (.applyTextdelta digger.fileBaton handled) with svndiffParser := true } := by
  have appended := doStackAppend_plain stack
    (show mayFollow (newFrame .textDelta {}).tag inner.tag by simp [mayFollow, newFrame, tag]) rfl
    (by simp [newFrame])
  have interpreted := xmlHandle_start (by simp) appended
  rw [interpretFrame] at interpreted
  simp only [newFrame, doBeginTextdelta, tag, applySvndiff] at interpreted
  rw [xmlParse_cons_ok interpreted]
  let within : Digger := { digger with
    stack := { newFrame .textDelta {} with baton := inner.baton } :: inner :: older
    svndiffParser := true }
  have streamed := xmlParse_stream digger.fileBaton (show within.stack = _ from rfl) rfl rfl whole
  refine streamed.trans ?_
  cases digger
  cases stack
  rfl

/-- The file of a text delta at the end is found by its id, and it is closed with its text. -/
theorem xmlParse_deferredText {digger : Digger} {package : Frame} {older : List Frame} {id : Int}
    {file : Nat} {handled : List (Option TxdeltaWindow)} (whole : WholeStream handled)
    (stack : digger.stack = package :: older) (tag : package.tag = .deltaPkg)
    (stored : digger.postfixHash id = some file) :
    xmlParse (.start .textDelta { id := some id } :: handled.map writeWindow) digger =
      .ok { (digger.call (.applyTextdelta (some file) handled)).call (.closeFile (some file)) with
        svndiffParser := false
        fileBaton := none } := by
  have appended := doStackAppend_plain stack
    (show mayFollow (newFrame .textDelta { id := some id }).tag package.tag by
      simp [mayFollow, newFrame, tag]) rfl (by simp [newFrame])
  have interpreted := xmlHandle_start (by simp) appended
  rw [interpretFrame] at interpreted
  simp only [newFrame, doBeginTextdelta, tag, applySvndiff, lookupFileBaton, stored] at interpreted
  rw [xmlParse_cons_ok interpreted]
  let within : Digger := { digger with
    stack := { newFrame .textDelta { id := some id } with
      baton := package.baton
      fileBaton := some file } :: package :: older
    svndiffParser := true }
  have streamed := xmlParse_stream (some file) (show within.stack = _ from rfl) rfl rfl whole
  refine streamed.trans ?_
  cases digger
  cases stack
  rfl

end Texts

end Subversion.Delta.Xml
