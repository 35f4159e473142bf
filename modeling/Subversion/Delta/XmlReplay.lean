/-
This file shows what an editor hears when a drive is written as XML and parsed again.
-/

import Subversion.Delta.XmlSimulation

namespace Subversion.Delta.Xml

open Subr

namespace Call

/-- The properties of the root are changed. -/
def ChangesRoot : Call → Prop
  | .changeProp .dir dir _ _ => dir = some 0
  | _ => False

/-- Base revisions and the sources of copies are left out. -/
def bare : Call → Call
  | .openRoot _ => .openRoot none
  | .deleteEntry path _ parent => .deleteEntry path none parent
  | .addOpen addopen dirfile path parent _ _ => .addOpen addopen dirfile path parent none none
  | call => call

/-- Only the last component of a path is written. -/
def named : Call → Call
  | .deleteEntry path revision parent => .deleteEntry (basename path) revision parent
  | .addOpen addopen dirfile path parent basePath baseRevision =>
      .addOpen addopen dirfile (basename path) parent basePath baseRevision
  | call => call

/-- The source of a copy is given. -/
def Copies : Call → Prop
  | .addOpen .add _ _ _ basePath _ => basePath ≠ none
  | _ => False

end Call

/-- What is heard of a call in an open directory. The root is opened with its first entry, and no
directory is current after a subdirectory. -/
def Editing.heard (tree : Editing) : Call → List Call
  | .deleteEntry path revision parent =>
      (if tree.begun then [] else [.openRoot none]) ++
        [(Call.deleteEntry path revision parent).named.bare]
  | .addOpen addopen dirfile path parent basePath baseRevision =>
      (if tree.begun then [] else [.openRoot none]) ++
        [(Call.addOpen addopen dirfile path parent basePath baseRevision).named.bare]
  | .changeProp .dir dir name value =>
      [.changeProp .dir (if tree.dir.subdirs then none else dir) name (sent value)]
  | .changeProp .file file name value => [.changeProp .file file name (sent value)]
  | .closeDirectory dir => if tree.begun then [.closeDirectory dir] else []
  | call => [call]

/-- What is heard of a call after the root was opened. A file that comes late is closed with its
text. -/
def heard : Stage → Call → List Call
  | .editing tree, call => tree.heard call
  | .texts _ _, .applyTextdelta file handled => [.applyTextdelta file handled, .closeFile file]
  | _, _ => []

def heardAll : Stage → List Call → List Call
  | _, [] => []
  | stage, call :: calls =>
      heard stage call ++
        match follow stage call with
        | some next => heardAll next calls
        | none => []

/-- The files that wait are found by their ids, and the others are closed. -/
structure RelatedTexts (waiting done : List Nat) (eb : EditBaton) (digger : Digger) : Prop where
  nodup : waiting.Nodup
  waits : ∀ file ∈ waiting, Waits eb digger file
  closed : ∀ file ∈ done, ∃ fb, eb.files[file]? = some fb ∧ fb.closed = true
  stack : ∃ package, digger.stack = [package] ∧ package.tag = .deltaPkg

/-- The states of the writer and the parser after the calls that lead to a stage. -/
def RelatedStage (eb : EditBaton) (digger : Digger) : Stage → Prop
  | .started _ => False
  | .editing tree => Related tree eb digger tree.begun
  | .texts waiting sent => RelatedTexts waiting sent eb digger
  | .finished => True

/-- One call is written, and the parser makes the calls that are heard. -/
def Replays (eb : EditBaton) (digger : Digger) (call : Call) (next : Stage) (heard : List Call) :
    Prop :=
  ∃ output final, writeCall eb call = some output ∧ xmlParse output.2 digger = .ok final ∧
    RelatedStage output.1 final next ∧
    final.calls.map Call.bare = digger.calls.map Call.bare ++ heard

section Steps

variable {tree left : Editing} {eb : EditBaton} {digger : Digger} {next : Stage}

theorem At.inTree {begun : Bool} (place : At tree eb digger begun) (elem : eb.elem = .treeDelta) :
    ∃ frame frames, digger.stack = frame :: frames ∧ IsTree tree.dir frame ∧
      Inside tree eb digger frames ∧ tree.current = none := by
  cases place with
  | tree _ noFile stack isTree inside => exact ⟨_, _, stack, isTree, inside, noFile⟩
  | package elem' | dir elem' | dirProps elem' | file elem' | fileProps elem' =>
      rw [elem] at elem'
      cases elem'

/-- Only the baton of a directory is known around its content. -/
theorem Nest.congr {dirs : List (Option AddOpen)} {dir other : OpenDir} {outer : List OpenDir}
    {frames : List Frame} (nest : Nest dirs dir outer frames) (same : other.baton = dir.baton) :
    Nest dirs other outer frames := by
  cases nest with
  | root first package baton made =>
      rw [← same] at first baton made
      exact .root first package baton made
  | dir later made tag baton entryTag isTree nest =>
      rw [← same] at later baton made
      exact .dir later made tag baton entryTag isTree nest

theorem Related.begins (related : Related tree eb digger true) (begun : tree.begun = true) :
    Related tree eb digger tree.begun := by
  rw [begun]
  exact related

theorem deleteEntry_replays {path : Bytes} {revision : Revision} {parent : Baton}
    (related : Related tree eb digger tree.begun)
    (followed : tree.follow (.deleteEntry path revision parent) = some next) :
    Replays eb digger (.deleteEntry path revision parent) next
      (tree.heard (.deleteEntry path revision parent)) := by
  simp only [Editing.follow, Option.bind_eq_bind, Option.bind_eq_some_iff] at followed
  obtain ⟨left, leaves, touched, touches, same⟩ := followed
  obtain ⟨rfl, nonempty, unused, rfl⟩ := touch_some touches
  obtain ⟨output, written, elem, middle, parsed, reached, calls⟩ := getToElem_treeDelta related leaves
  obtain ⟨frame, frames, stack, isTree, inside, noFile⟩ := reached.place.inTree elem
  have writes : writeCall eb (.deleteEntry path revision (some left.dir.baton)) = some (output.1,
      output.2 ++ [.start .delete { name := some (basename path), baseRev := revision },
        .finish .delete]) := by
    simp only [writeCall, written, bind, Option.bind]
  refine ⟨_, _, writes, (xmlParse_append_ok parsed).trans (xmlParse_delete _ _ stack isTree.tag),
    ?_, ?_⟩
  · rw [← Option.some.inj same]
    obtain ⟨names, holds, inNames⟩ := isTree.names
    exact Related.begins ⟨{ reached.books with }, .tree elem noFile stack ⟨isTree.tag, isTree.baton,
      names, holds, fun name member => List.mem_cons_of_mem _ (inNames member)⟩
      ⟨inside.nest.congr rfl, inside.nextDir⟩⟩ (begun_of_names (List.cons_ne_nil _ _))
  · rw [Digger.call, calls, isTree.baton]
    simp [Editing.heard, Call.named, Call.bare]
    split <;> rfl

/-- The attributes of the content, as they are written. -/
def contentAtts (baseRevision : Revision) : AddOpen → Atts
  | .add => { copyfromRev := baseRevision }
  | .opened => { baseRev := baseRevision }

def contentElem : DirFile → ElemType
  | .dir => .dir
  | .file => .file

theorem writeCall_addOpen {output : Output} {addopen : AddOpen} {path : Bytes}
    {parent : Baton} {copyPath : Option Bytes} {revision : Revision} (dirfile : DirFile)
    (written : getToElem eb .treeDelta = some output)
    (noCopy : ¬(Call.addOpen addopen dirfile path parent copyPath revision).Copies) :
    writeCall eb (.addOpen addopen dirfile path parent copyPath revision) =
      some (makeBaton { output.1 with elem := contentElem dirfile } addopen dirfile,
        output.2 ++ [.start (outertag addopen) { name := some (basename path) },
          .start (innertag dirfile) (contentAtts revision addopen)]) := by
  have plain : ¬(addopen = .add ∧ copyPath ≠ none) := by
    rintro ⟨rfl, copied⟩
    exact noCopy copied
  simp only [writeCall, outputAddopen, written, bind, Option.bind, if_neg plain]
  cases addopen with
  | add | opened =>
      cases dirfile with
      | dir | file => rfl

theorem Waits.addFile {file : Nat} (waits : Waits eb digger file) (fb : FileBaton) :
    Waits { eb with files := eb.files ++ [fb] } digger file := by
  obtain ⟨addopen, id, there, positive, below, stored⟩ := waits
  refine ⟨addopen, id, ?_, positive, below, stored⟩
  rw [List.getElem?_append_left (List.getElem?_eq_some_iff.mp there).1]
  exact there

theorem addFile_replays {addopen : AddOpen} {path : Bytes} {parent : Baton}
    {copyPath : Option Bytes} {revision : Revision} (related : Related tree eb digger tree.begun)
    (noCopy : ¬(Call.addOpen addopen .file path parent copyPath revision).Copies)
    (followed : tree.follow (.addOpen addopen .file path parent copyPath revision) = some next) :
    Replays eb digger (.addOpen addopen .file path parent copyPath revision) next
      (tree.heard (.addOpen addopen .file path parent copyPath revision)) := by
  simp only [Editing.follow, Option.bind_eq_bind, Option.bind_eq_some_iff] at followed
  obtain ⟨left, leaves, touched, touches, same⟩ := followed
  obtain ⟨rfl, nonempty, unused, rfl⟩ := touch_some touches
  obtain ⟨output, written, elem, middle, parsed, reached, calls⟩ := getToElem_treeDelta related leaves
  obtain ⟨frame, frames, stack, isTree, inside, noFile⟩ := reached.place.inTree elem
  obtain ⟨p, r, inner, entry, treeFrame, opened, tag, baton, fresh, entryTag, isTree⟩ :=
    xmlParse_file (contentAtts revision addopen) stack isTree nonempty unused inside.nest.found
  refine ⟨_, _, writeCall_addOpen .file written noCopy, (xmlParse_append_ok parsed).trans opened,
    ?_, ?_⟩
  · rw [← Option.some.inj same]
    show Related _ _ _ _
    rw [begun_of_names (List.cons_ne_nil _ _)]
    have books := reached.books
    refine ⟨⟨books.nodup, books.outer, books.dirs, ?_, books.counter, ?_, ?_, ?_,
      books.dirBaton⟩, .file rfl rfl (.frames tag ?_ fresh ?_ isTree ⟨inside.nest.congr rfl,
        inside.nextDir⟩)⟩
    · show (_ ++ [_]).length = left.nextFile + 1
      rw [List.length_append, books.files]
      rfl
    · exact fun file member => (books.deferred file member).addFile _
    · intro file texted isCurrent
      obtain ⟨rfl, rfl⟩ := isCurrent
      refine ⟨?_, ?_, addopen, ?_⟩
      · exact congrArg some books.files
      · exact congrArg some books.nextFile
      · rw [← books.files]
        exact List.getElem?_concat_length
    · exact congrArg (· + 1) books.nextFile
    · rw [baton, books.nextFile]
    · intro fb there
      have last : (output.1.files ++ [⟨addopen, 0, false⟩])[left.nextFile]? = some fb := there
      rw [← books.files, List.getElem?_concat_length] at last
      rw [← Option.some.inj last]
      exact entryTag
  · simp [Digger.call, calls, Editing.heard, Call.named, Call.bare]
    split <;> rfl

theorem Nest.append {dirs : List (Option AddOpen)} {dir : OpenDir} {outer : List OpenDir}
    {frames : List Frame} (nest : Nest dirs dir outer frames) (more : List (Option AddOpen)) :
    Nest (dirs ++ more) dir outer frames := by
  have kept : ∀ {place : Nat} {made : Option AddOpen}, dirs[place]? = some made →
      (dirs ++ more)[place]? = some made := by
    intro place made there
    rw [List.getElem?_append_left (List.getElem?_eq_some_iff.mp there).1]
    exact there
  induction nest with
  | root first package baton made => exact .root first package baton (kept made)
  | dir later made tag baton entryTag isTree _ step =>
      exact .dir later (kept made) tag baton entryTag isTree step

theorem Nest.made {dirs : List (Option AddOpen)} {dir : OpenDir} {outer : List OpenDir}
    {frames : List Frame} (nest : Nest dirs dir outer frames) : dirs ≠ [] := by
  cases nest with
  | root _ _ _ made | dir _ made =>
      rintro rfl
      cases made

theorem addDirectory_replays {addopen : AddOpen} {path : Bytes} {parent : Baton}
    {copyPath : Option Bytes} {revision : Revision} (related : Related tree eb digger tree.begun)
    (noCopy : ¬(Call.addOpen addopen .dir path parent copyPath revision).Copies)
    (followed : tree.follow (.addOpen addopen .dir path parent copyPath revision) = some next) :
    Replays eb digger (.addOpen addopen .dir path parent copyPath revision) next
      (tree.heard (.addOpen addopen .dir path parent copyPath revision)) := by
  simp only [Editing.follow, Option.bind_eq_bind, Option.bind_eq_some_iff] at followed
  obtain ⟨left, leaves, touched, touches, same⟩ := followed
  obtain ⟨rfl, nonempty, unused, rfl⟩ := touch_some touches
  split at same
  · cases same
  obtain ⟨output, written, elem, middle, parsed, reached, calls⟩ := getToElem_treeDelta related leaves
  obtain ⟨frame, frames, stack, isTree, inside, noFile⟩ := reached.place.inTree elem
  obtain ⟨p, r, inner, entry, treeFrame, opened, tag, baton, entryTag, isTree⟩ :=
    xmlParse_dir (contentAtts revision addopen) stack isTree nonempty unused inside.nest.found
  refine ⟨_, _, writeCall_addOpen .dir written noCopy, (xmlParse_append_ok parsed).trans opened,
    ?_, ?_⟩
  · rw [← Option.some.inj same]
    show Related _ _ _ _
    rw [begun_of_outer (List.cons_ne_nil _ _)]
    have books := reached.books
    have count : (output.1.dirs ++ [some addopen])[left.nextDir]? = some (some addopen) := by
      rw [← books.dirs]
      exact List.getElem?_concat_length
    have later : left.nextDir ≠ 0 := by
      rw [← books.dirs]
      exact fun empty => inside.nest.made (List.length_eq_zero_iff.mp empty)
    refine ⟨⟨books.nodup, ?_, ?_, books.files, books.counter, books.deferred, ?_, books.nextFile, ?_⟩,
      .dir rfl noFile (List.cons_ne_nil _ _) ⟨.dir later count tag ?_ entryTag { isTree with }
        ((inside.nest.append _).congr rfl), ?_⟩⟩
    · intro dir member
      rcases List.mem_cons.mp member with rfl | outer
      · exact ⟨rfl, List.cons_ne_nil _ _⟩
      · exact books.outer dir outer
    · show (_ ++ [_]).length = left.nextDir + 1
      rw [List.length_append, books.dirs]
      rfl
    · intro file texted isCurrent
      rw [show _ = none from noFile] at isCurrent
      cases isCurrent
    · simp [Editing.openDir, OpenDir.opened, inside.nextDir]
    · rw [baton, inside.nextDir]
      rfl
    · exact congrArg (· + 1) inside.nextDir
  · simp [Digger.call, calls, Editing.heard, Call.named, Call.bare]
    split <;> rfl

/-- The element for a new value or a deletion. -/
theorem outputPropset_parses {elem : ElemType} {output : Output} {props : Frame} {older : List Frame}
    {kind : DirFile} {middle : Digger} (name : Bytes) (value : Option Bytes)
    (written : getToElem eb elem = some output) (parsed : xmlParse output.2 digger = .ok middle)
    (stack : middle.stack = props :: older) (tag : props.tag = .propDelta)
    (propdelta : middle.currentPropdelta = some ⟨kind, [], []⟩) :
    ∃ events, outputPropset eb elem name value = some (output.1, events) ∧ xmlParse events digger =
      .ok (middle.call (.changeProp kind (middle.propBaton kind) name (sent value))) := by
  cases value with
  | none =>
      refine ⟨output.2 ++ [.start .delete { name := some name }, .finish .delete], ?_,
        (xmlParse_append_ok parsed).trans (xmlParse_deleteProp name stack tag propdelta)⟩
      simp only [outputPropset, written, bind, Option.bind]
  | some value =>
      refine ⟨output.2 ++ [.start .set { name := some name }, .text value, .finish .set], ?_,
        (xmlParse_append_ok parsed).trans (xmlParse_set name value stack tag propdelta)⟩
      simp only [outputPropset, written, bind, Option.bind]

theorem changeDirProp_replays {dir : Baton} {name : Bytes} {value : Option Bytes}
    (related : Related tree eb digger tree.begun) (below : tree.outer ≠ [])
    (followed : tree.follow (.changeProp .dir dir name value) = some next) :
    Replays eb digger (.changeProp .dir dir name value) next
      (tree.heard (.changeProp .dir dir name value)) := by
  simp only [Editing.follow, Option.bind_eq_bind, Option.bind_eq_some_iff] at followed
  obtain ⟨left, leaves, same⟩ := followed
  obtain ⟨sameDir, sameOuter, -⟩ := leaveFile_keeps leaves
  split at same
  · rename_i isDir
    rw [← sameOuter] at below
    obtain ⟨output, written, elem, middle, parsed, reached, calls⟩ :=
      getToElem_dirPropDelta related leaves below
    have place := reached.place
    rw [begun_of_outer (sameOuter ▸ below)] at place
    cases place with
    | dirProps _ noFile _ stack tag propdelta inside =>
        obtain ⟨events, writes, parses⟩ :=
          outputPropset_parses name value written parsed stack tag propdelta
        refine ⟨_, _, writes, parses, ?_, ?_⟩
        · rw [← Option.some.inj same]
          exact Related.begins ⟨{ reached.books with }, .dirProps elem noFile below stack tag
            propdelta ⟨inside.nest.congr rfl, inside.nextDir⟩⟩ (begun_of_outer below)
        · have baton := reached.books.dirBaton
          simp only [below, false_or] at baton
          simp [Digger.call, calls, Editing.heard, Call.bare, Digger.propBaton, baton, isDir, sameDir]
    | dir elem' | tree elem' | file elem' | fileProps elem' =>
        rw [elem] at elem'
        cases elem'
  · cases same

theorem changeFileProp_replays {file : Baton} {name : Bytes} {value : Option Bytes}
    (related : Related tree eb digger tree.begun)
    (followed : tree.follow (.changeProp .file file name value) = some next) :
    Replays eb digger (.changeProp .file file name value) next
      (tree.heard (.changeProp .file file name value)) := by
  simp only [Editing.follow] at followed
  split at followed
  · rename_i isFile
    obtain ⟨given, isCurrent⟩ := isFile
    cases current : tree.current with
    | none =>
        rw [current] at isCurrent
        contradiction
    | some worked =>
        obtain ⟨output, written, elem, middle, parsed, reached, calls⟩ :=
          getToElem_filePropDelta related current
        have place := reached.place
        generalize begins : tree.begun = begun at place
        cases place with
        | fileProps _ same stack tag propdelta inside =>
            obtain ⟨events, writes, parses⟩ :=
              outputPropset_parses name value written parsed stack tag propdelta
            refine ⟨_, _, writes, parses, ?_, ?_⟩
            · rw [← Option.some.inj followed]
              refine Related.begins ⟨{ reached.books with }, ?_⟩ begins
              cases inside with
              | frames innerTag baton fresh entryTag isTree within =>
                  exact .fileProps elem same stack tag propdelta
                    (.frames innerTag baton fresh entryTag isTree { within with })
            · obtain ⟨_, fileBaton, -⟩ := reached.books.current _ _ current
              simp [Digger.call, calls, Editing.heard, Call.bare, Digger.propBaton, fileBaton,
                isCurrent, current]
        | package elem' | dir elem' | dirProps elem' | tree elem' | file elem' =>
            rw [elem] at elem'
            cases elem'
  · cases followed

/-- No directory is opened on the way to an element. -/
theorem getToElem_dirs {elem : ElemType} {output : Output}
    (written : getToElem eb elem = some output) : output.1.dirs = eb.dirs := by
  have fileProps : ∀ eb, (unwindFileProps eb elem).1.dirs = eb.dirs := by
    intro eb
    rw [unwindFileProps]
    split <;> rfl
  have file : ∀ eb found, unwindFile eb elem = some found → found.1.dirs = eb.dirs := by
    intro eb found unwound
    rw [unwindFile] at unwound
    split at unwound
    · simp only [Option.bind_eq_bind, Option.bind_eq_some_iff] at unwound
      obtain ⟨_, _, fb, _, closed⟩ := unwound
      rw [← Option.some.inj closed, closeElement]
      split <;> rfl
    · rw [← Option.some.inj unwound]
  have others : ∀ eb, (unwindTree eb elem).1.dirs = eb.dirs ∧
      (unwindDirProps eb elem).1.dirs = eb.dirs ∧ (windTree eb elem).1.dirs = eb.dirs ∧
      (windProps eb elem).1.dirs = eb.dirs := by
    intro eb
    rw [unwindTree, unwindDirProps, windTree, windProps]
    refine ⟨?_, ?_, ?_, ?_⟩ <;> split <;> rfl
  simp only [getToElem, Option.bind_eq_bind, Option.bind_eq_some_iff] at written
  obtain ⟨found, unwound, written⟩ := written
  split at written
  · rw [← Option.some.inj written]
    show EditBaton.dirs _ = _
    rw [(others _).2.2.2, (others _).2.2.1, (others _).2.1, (others _).1, file _ _ unwound, fileProps]
  · cases written

theorem xmlParse_finishDir {inner entry : Frame} {older : List Frame} {addopen : AddOpen}
    (stack : digger.stack = inner :: entry :: older) (tag : inner.tag = .dir)
    (entryTag : entry.tag = outertag addopen) :
    xmlParse [.finish .dir, .finish (outertag addopen)] digger =
      .ok { doCloseDirectory digger inner with stack := older } := by
  have closed : endEvent digger inner (entry :: older) = doCloseDirectory digger inner := by
    rw [endEvent, tag]
  rw [xmlParse_cons_ok (xmlHandle_finish _ stack tag), closed, xmlParse_singleton]
  apply xmlHandle_finish_plain _ _ entryTag (outertag_plain addopen)
  simp [Digger.pop, doCloseDirectory, Digger.call, stack]

/-- The directory around becomes the innermost one, and it has had a subdirectory. -/
theorem closeDirectory_replays {dir : Baton} {parent : OpenDir} {outer : List OpenDir}
    (related : Related tree eb digger tree.begun) (leaves : tree.leaveFile = some left)
    (isDir : dir = some left.dir.baton) (around : left.outer = parent :: outer) :
    Replays eb digger (.closeDirectory dir)
      (.editing { left with dir := parent, outer := outer }) (tree.heard (.closeDirectory dir)) := by
  have below : left.outer ≠ [] := by
    rw [around]
    exact List.cons_ne_nil _ _
  obtain ⟨output, written, elem, middle, parsed, reached, calls⟩ :=
    getToElem_dir related leaves below
  have books := reached.books
  have begins : tree.begun = true := begun_of_outer ((leaveFile_keeps leaves).2.1 ▸ below)
  have place := reached.place
  rw [begins] at place
  cases place with
  | dir _ noFile _ inside =>
      obtain ⟨nest, nextDir⟩ := inside
      rw [around] at nest
      generalize framesAre : middle.stack = frames at nest
      cases nest with
      | @dir _ _ _ addopen _ _ _ _ later made tag baton entryTag isTree nest =>
          have parses := (xmlParse_append_ok parsed).trans (xmlParse_finishDir framesAre tag entryTag)
          have writes : writeCall eb (.closeDirectory dir) =
              some ({ output.1 with elem := .treeDelta },
                output.2 ++ [.finish .dir, .finish (outertag addopen)]) := by
            rw [getToElem_dirs written] at made
            simp only [writeCall, isDir, bind, Option.bind, made, closeDirectory, written]
          refine ⟨_, _, writes, parses, ?_, ?_⟩
          · have known : ∀ dir ∈ parent :: outer, dir.subdirs = true ∧ dir.names ≠ [] :=
              around ▸ books.outer
            obtain ⟨subdirs, named⟩ := known parent List.mem_cons_self
            refine Related.begins ⟨⟨books.nodup, fun dir member => known dir (.tail _ member),
              books.dirs, books.files, books.counter, books.deferred, books.current, books.nextFile,
              ?_⟩, .tree rfl noFile rfl isTree ⟨nest, nextDir⟩⟩ (begun_of_names named)
            simp [doCloseDirectory, subdirs]
          · simp [doCloseDirectory, Digger.call, calls, baton, Editing.heard, begins, isDir, Call.bare]
  | dirProps elem' | tree elem' | file elem' | fileProps elem' =>
      rw [elem] at elem'
      cases elem'

theorem Waits.setFile {file other : Nat} {fb : FileBaton} (waits : Waits eb digger other)
    (found : eb.files[file]? = some fb) (isOpen : fb.closed = false) (changed : FileBaton) :
    Waits { eb with files := eb.files.set file changed } digger other := by
  obtain ⟨addopen, id, there, positive, below, stored⟩ := waits
  have apart : file ≠ other := by
    intro same
    rw [same, there] at found
    rw [← Option.some.inj found] at isOpen
    cases isOpen
  refine ⟨addopen, id, ?_, positive, below, stored⟩
  rw [List.getElem?_set_ne apart]
  exact there

theorem applyTextdelta_replays {file : Nat} {handled : List (Option TxdeltaWindow)}
    (related : Related tree eb digger tree.begun) (current : tree.current = some (file, false))
    (whole : WholeStream handled) :
    Replays eb digger (.applyTextdelta (some file) handled)
      (.editing { tree with current := some (file, true) })
      (tree.heard (.applyTextdelta (some file) handled)) := by
  obtain ⟨output, written, elem, sameFiles, middle, parsed, reached, calls⟩ :=
    getToElem_file related current
  obtain ⟨curfile, fileBaton, addopen, found⟩ := reached.books.current _ _ current
  have place := reached.place
  generalize begins : tree.begun = begun at place
  cases place with
  | file _ same inside =>
      rw [current] at same
      obtain ⟨rfl, rfl⟩ := same
      generalize framesAre : middle.stack = frames at inside
      cases inside with
      | @frames inner entry frame older tag baton fresh entryTag isTree within =>
          have parses := xmlParse_inlineText whole framesAre tag
          have writes : writeCall eb (.applyTextdelta (some file) handled) =
              some ({ output.1 with files := output.1.files.set file ⟨addopen, -1, false⟩ },
                output.2 ++ (.start .textDelta {} :: handled.map writeWindow)) := by
            simp only [if_false, Bool.false_eq_true] at found
            simp [writeCall, applyTextdelta, ← sameFiles, found, written]
          refine ⟨_, _, writes, (xmlParse_append_ok parsed).trans parses, ?_, ?_⟩
          · have books := reached.books
            have below := (List.getElem?_eq_some_iff.mp found).1
            refine Related.begins ⟨⟨books.nodup, books.outer, books.dirs, ?_, books.counter, ?_, ?_,
              books.nextFile, books.dirBaton⟩, .file elem rfl ?_⟩ begins
            · rw [List.length_set]
              exact books.files
            · exact fun other member => (books.deferred other member).setFile found rfl _
            · intro _ _ isCurrent
              obtain ⟨rfl, rfl⟩ := isCurrent
              exact ⟨curfile, fileBaton, addopen, List.getElem?_set_self below⟩
            · show InsideFile _ _ _ _ middle.stack
              rw [framesAre]
              refine .frames tag baton fresh ?_ isTree { within with }
              intro fb there
              rw [List.getElem?_set_self below] at there
              rw [← Option.some.inj there]
              exact (entryTag _ found : _ = outertag addopen)
          · simp [Digger.call, calls, Editing.heard, Call.bare, fileBaton]
  | package elem' | dir elem' | dirProps elem' | tree elem' | fileProps elem' =>
      rw [elem] at elem'
      cases elem'

theorem closeFile_replays {file : Nat} {texted : Bool} (related : Related tree eb digger tree.begun)
    (current : tree.current = some (file, texted)) :
    Replays eb digger (.closeFile (some file))
      (.editing { tree with current := none }) (tree.heard (.closeFile (some file))) := by
  obtain ⟨output, written, elem, sameFiles, middle, parsed, reached, calls⟩ :=
    getToElem_file related current
  obtain ⟨curfile, fileBaton, addopen, found⟩ := reached.books.current _ _ current
  have place := reached.place
  generalize begins : tree.begun = begun at place
  cases place with
  | file _ same inside =>
      rw [current] at same
      obtain ⟨rfl, rfl⟩ := same
      generalize framesAre : middle.stack = frames at inside
      cases inside with
      | @frames inner entry frame older tag baton fresh entryTag isTree within =>
          have closes : doCloseFile middle inner = { middle.call (.closeFile (some file)) with
              svndiffParser := false
              fileBaton := none } := by
            rw [doCloseFile, fresh, baton]
            rfl
          have parses := xmlParse_finishFile framesAre tag (entryTag _ found)
          rw [closes] at parses
          have writes : writeCall eb (.closeFile (some file)) =
              some ({ output.1 with elem := .treeDelta, curfile := none },
                output.2 ++ [.finish .file, .finish (outertag addopen)]) := by
            simp [writeCall, closeFile, ← sameFiles, found, written]
          refine ⟨_, _, writes, (xmlParse_append_ok parsed).trans parses, ?_, ?_⟩
          · have books := reached.books
            exact Related.begins ⟨{ books with current := fun _ _ none => by cases none },
              .tree rfl rfl rfl isTree { within with }⟩ begins
          · simp [Digger.call, calls, Editing.heard, Call.bare]
  | package elem' | dir elem' | dirProps elem' | tree elem' | fileProps elem' =>
      rw [elem] at elem'
      cases elem'

/-- The end of its tree delta closes the root, if there is one. -/
theorem closeRoot_replays {dir : Baton} (related : Related tree eb digger tree.begun)
    (leaves : tree.leaveFile = some left) (isDir : dir = some left.dir.baton)
    (alone : left.outer = []) :
    Replays eb digger (.closeDirectory dir) (.texts left.deferred [])
      (tree.heard (.closeDirectory dir)) := by
  obtain ⟨output, unwound, files, noFile, noProps⟩ := unwindFiles_reaches related leaves
    (show ElemType.dir ≠ .file ∧ ElemType.dir ≠ .filePropDelta by simp)
  obtain ⟨middle, parsed, reached, calls⟩ := files
  have books := reached.books
  have place := reached.place
  generalize begins : tree.begun = begun at place
  cases place with
  | package elem root stack package made =>
      replace elem : output.1.elem = .dir := elem
      have written : getToElem eb .dir =
          some (output.1, (unwindFileProps eb .dir).2 ++ output.2) := by
        simp [getToElem, unwound, unwindTree, unwindDirProps, windTree, windProps, elem]
      have writes : writeCall eb (.closeDirectory dir) =
          some ({ output.1 with elem := .deltaPkg }, (unwindFileProps eb .dir).2 ++ output.2) := by
        have made : eb.dirs[left.dir.baton]? = some none := by
          rw [← getToElem_dirs written, made, root]
          rfl
        simp only [writeCall, isDir, bind, Option.bind, made, closeDirectory, written]
      refine ⟨_, _, writes, parsed, ⟨books.nodup, books.deferred, ?_, _, stack, package.tag⟩, ?_⟩
      · exact fun _ member => by cases member
      · simp [calls, Editing.heard, begins]
  | @tree frame frames elem _ stack isTree inside =>
      replace elem : output.1.elem = .treeDelta := elem
      obtain ⟨nest, -⟩ := inside
      rw [alone] at nest
      cases nest with
      | root first package baton made =>
          have written : getToElem eb .dir = some ({ output.1 with elem := .dir },
              ((unwindFileProps eb .dir).2 ++ output.2) ++ [.finish .treeDelta]) := by
            simp [getToElem, unwound, unwindTree, unwindDirProps, windTree, windProps, elem]
          have writes : writeCall eb (.closeDirectory dir) =
              some ({ output.1 with elem := .deltaPkg },
                ((unwindFileProps eb .dir).2 ++ output.2) ++ [.finish .treeDelta]) := by
            rw [← show _ = output.1.dirs from (getToElem_dirs written).symm] at made
            simp only [writeCall, isDir, bind, Option.bind, made, closeDirectory, written]
          have ends := xmlHandle_finish .treeDelta stack isTree.tag
          rw [endEvent, isTree.tag] at ends
          simp only [List.head?_cons, Option.map_some, package.tag, if_true] at ends
          refine ⟨_, _, writes, (xmlParse_append_ok parsed).trans
            ((xmlParse_singleton _ _).trans ends), ⟨books.nodup, books.deferred, ?_, _, ?_,
              package.tag⟩, ?_⟩
          · exact fun _ member => by cases member
          · simp [Digger.pop, doCloseDirectory, Digger.call, stack]
          · simp [Digger.pop, doCloseDirectory, Digger.call, calls, Editing.heard, begins, Call.bare,
              isTree.baton, isDir]
  | dir _ _ below | dirProps _ _ below => contradiction
  | file elem | fileProps elem => contradiction

theorem lateText_replays {waiting done : List Nat} {file : Nat}
    {handled : List (Option TxdeltaWindow)} (related : RelatedTexts waiting done eb digger)
    (member : file ∈ waiting) (whole : WholeStream handled) :
    Replays eb digger (.applyTextdelta (some file) handled)
      (.texts (waiting.erase file) (file :: done))
      [.applyTextdelta (some file) handled, .closeFile (some file)] := by
  obtain ⟨addopen, id, found, positive, below, stored⟩ := related.waits file member
  obtain ⟨package, stack, tag⟩ := related.stack
  have parses := xmlParse_deferredText whole stack tag stored
  have writes : writeCall eb (.applyTextdelta (some file) handled) =
      some ({ eb with files := eb.files.set file ⟨addopen, -1, true⟩ },
        .start .textDelta { id := some id } :: handled.map writeWindow) := by
    have late : id ≠ 0 := by omega
    simp [writeCall, applyTextdelta, found, late]
  have inside := (List.getElem?_eq_some_iff.mp found).1
  refine ⟨_, _, writes, parses, ⟨related.nodup.erase file, ?_, ?_, package, stack, tag⟩, ?_⟩
  · intro other waits
    have apart : file ≠ other := by
      rintro rfl
      exact related.nodup.not_mem_erase waits
    obtain ⟨addopen, id, there, known⟩ := related.waits other (List.mem_of_mem_erase waits)
    refine ⟨addopen, id, ?_, known⟩
    rw [List.getElem?_set_ne apart]
    exact there
  · intro other closed
    by_cases same : file = other
    · rw [← same]
      exact ⟨_, List.getElem?_set_self inside, rfl⟩
    · rcases List.mem_cons.mp closed with rfl | before
      · exact absurd rfl same
      · rw [List.getElem?_set_ne same]
        exact related.closed other before
  · simp [Digger.call, Call.bare]

theorem lateClose_replays {waiting done : List Nat} {file : Nat}
    (related : RelatedTexts waiting done eb digger) (member : file ∈ done) :
    Replays eb digger (.closeFile (some file)) (.texts waiting (done.erase file))
      [] := by
  obtain ⟨fb, found, closed⟩ := related.closed file member
  have writes : writeCall eb (.closeFile (some file)) = some (eb, []) := by
    simp [writeCall, closeFile, found, closed]
  refine ⟨_, _, writes, rfl, ⟨related.nodup, related.waits, ?_, related.stack⟩,
    (List.append_nil _).symm⟩
  exact fun other still => related.closed other (List.mem_of_mem_erase still)

theorem Related.root_baton {begun : Bool} (related : Related tree eb digger begun)
    (alone : tree.outer = []) : tree.dir.baton = 0 := by
  have ofNest : ∀ {frames}, Nest eb.dirs tree.dir tree.outer frames → tree.dir.baton = 0 := by
    intro frames nest
    rw [alone] at nest
    cases nest with
    | root first => exact first
  have ofFile : ∀ {file frames}, InsideFile tree eb digger file frames → tree.dir.baton = 0 := by
    intro file frames inside
    cases inside with
    | frames _ _ _ _ _ inside => exact ofNest inside.nest
  cases related.place with
  | package _ root =>
      rw [root]
      rfl
  | dir _ _ _ inside | dirProps _ _ _ _ _ _ inside | tree _ _ _ _ inside => exact ofNest inside.nest
  | file _ _ inside | fileProps _ _ _ _ _ inside => exact ofFile inside

theorem editing_replays {call : Call} (related : Related tree eb digger tree.begun)
    (noCopy : ¬call.Copies) (noRoot : ¬call.ChangesRoot) (followed : tree.follow call = some next) :
    Replays eb digger call next (tree.heard call) := by
  cases call with
  | setTargetRevision revision | openRoot revision | closeEdit => cases followed
  | deleteEntry path revision parent => exact deleteEntry_replays related followed
  | addOpen addopen dirfile path parent copyPath revision =>
      cases dirfile with
      | dir => exact addDirectory_replays related noCopy followed
      | file => exact addFile_replays related noCopy followed
  | changeProp dirfile baton name value =>
      cases dirfile with
      | file => exact changeFileProp_replays related followed
      | dir =>
          apply changeDirProp_replays related _ followed
          intro alone
          simp only [Editing.follow, Option.bind_eq_bind, Option.bind_eq_some_iff] at followed
          obtain ⟨left, leaves, same⟩ := followed
          split at same
          · rename_i isDir
            apply noRoot
            rw [Call.ChangesRoot, isDir, (leaveFile_keeps leaves).1, related.root_baton alone]
          · cases same
  | closeDirectory dir =>
      simp only [Editing.follow, Option.bind_eq_bind, Option.bind_eq_some_iff] at followed
      obtain ⟨left, leaves, same⟩ := followed
      split at same
      · rename_i isDir
        split at same
        · rename_i alone
          rw [← Option.some.inj same]
          exact closeRoot_replays related leaves isDir alone
        · rename_i around
          rw [← Option.some.inj same]
          exact closeDirectory_replays related leaves isDir around
      · cases same
  | applyTextdelta file handled =>
      simp only [Editing.follow] at followed
      split at followed
      · rename_i worked current
        split at followed
        · rename_i allowed
          obtain ⟨rfl, whole⟩ := allowed
          rw [← Option.some.inj followed]
          exact applyTextdelta_replays related current whole
        · cases followed
      · cases followed
  | closeFile file =>
      simp only [Editing.follow] at followed
      split at followed
      · rename_i allowed
        obtain ⟨given, isCurrent⟩ := allowed
        cases current : tree.current with
        | none =>
            rw [current] at isCurrent
            contradiction
        | some worked =>
            rw [current] at isCurrent
            rw [isCurrent, ← Option.some.inj followed]
            exact closeFile_replays related current
      · cases followed

/-- A call that the rules allow after the root was opened is written and replayed. -/
theorem writeCall_replays {call : Call} {stage : Stage} (related : RelatedStage eb digger stage)
    (noCopy : ¬call.Copies) (noRoot : ¬call.ChangesRoot) (followed : follow stage call = some next) :
    Replays eb digger call next (heard stage call) := by
  cases stage with
  | started target => contradiction
  | editing tree => exact editing_replays related noCopy noRoot followed
  | texts waiting done =>
      replace related : RelatedTexts waiting done eb digger := related
      rcases follow_late followed with ⟨file, handled, rfl, member, whole, rfl⟩ |
        ⟨file, rfl, member, rfl⟩ | ⟨rfl, rfl, rfl, rfl⟩
      · exact lateText_replays related member whole
      · exact lateClose_replays related member
      · obtain ⟨package, stack, tag⟩ := related.stack
        have ends := xmlHandle_finish .deltaPkg stack tag
        rw [endEvent, tag] at ends
        exact ⟨_, _, rfl, (xmlParse_singleton _ _).trans ends, trivial, (List.append_nil _).symm⟩
  | finished => cases call <;> cases followed

theorem writeCalls_cons {call : Call} {calls : List Call} {output : Output}
    (written : writeCall eb call = some output) :
    writeCalls eb (call :: calls) = (writeCalls output.1 calls).map (output.2 ++ ·) := by
  rw [writeCalls, written]
  simp only [bind, Option.bind]
  cases writeCalls output.1 calls with
  | none | some => rfl

/-- The part of a drive after the root was opened is written and replayed call by call. -/
theorem writeCalls_replay {drive : List Call} {stage last : Stage}
    (related : RelatedStage eb digger stage) (noCopy : ∀ call ∈ drive, ¬call.Copies)
    (noRoot : ∀ call ∈ drive, ¬call.ChangesRoot) (followed : follows stage drive = some last) :
    ∃ ends events final,
      (∀ more, writeCalls eb (drive ++ more) = (writeCalls ends more).map (events ++ ·)) ∧
      xmlParse events digger = .ok final ∧ RelatedStage ends final last ∧
      final.calls.map Call.bare = digger.calls.map Call.bare ++ heardAll stage drive := by
  induction drive generalizing stage eb digger with
  | nil =>
      obtain rfl := Option.some.inj followed
      refine ⟨eb, [], digger, ?_, rfl, related, (List.append_nil _).symm⟩
      intro more
      simp
  | cons call drive step =>
      rw [follows, List.foldlM_cons, Option.bind_eq_bind, Option.bind_eq_some_iff] at followed
      obtain ⟨next, stepped, rest⟩ := followed
      obtain ⟨output, middle, written, parsed, relatedNext, calls⟩ :=
        writeCall_replays related (noCopy _ List.mem_cons_self) (noRoot _ List.mem_cons_self) stepped
      obtain ⟨ends, events, final, writes, parses, relatedLast, allCalls⟩ := step relatedNext
        (fun call member => noCopy call (.tail _ member))
        (fun call member => noRoot call (.tail _ member)) rest
      refine ⟨ends, output.2 ++ events, final, ?_, (xmlParse_append_ok parsed).trans parses,
        relatedLast, ?_⟩
      · intro more
        rw [List.cons_append, writeCalls_cons written, writes, Option.map_map]
        congr 1
        funext rest
        exact (List.append_assoc _ _ _).symm
      · rw [allCalls, calls, heardAll, stepped, List.append_assoc]

end Steps

section Opening

variable {basePath : Bytes} {baseRevision target revision : Revision}

/-- The editor that has opened its root. -/
def openedEditor (target : Revision) : EditBaton :=
  { getXmlEditor with elem := .dir, targetRevision := target, dirs := [none] }

def packageStart (revision target : Revision) : XmlEvent :=
  .start .deltaPkg { baseRev := revision, targetRev := target }

/-- The package starts with the root, whose element comes later. -/
theorem writeCalls_openRoot (calls : List Call) :
    writeCalls { getXmlEditor with targetRevision := target } (.openRoot revision :: calls) =
      (writeCalls (openedEditor target) calls).map (packageStart revision target :: ·) := by
  have written : writeCall { getXmlEditor with targetRevision := target } (.openRoot revision) =
      some (openedEditor target, [packageStart revision target]) := rfl
  rw [writeCalls_cons written]
  rfl

/-- A drive starts with the root, and perhaps with the target revision before it. -/
theorem Obeys.opening {drive : List Call} (obeys : Obeys drive) :
    ∃ target revision rest, follows (.editing .root) rest = some .finished ∧
      (drive = .openRoot revision :: rest ∧ target = none ∨
        drive = .setTargetRevision target :: .openRoot revision :: rest) := by
  have fromRoot : ∀ {target calls}, follows (.started target) calls = some .finished →
      (∀ revision, calls.head? ≠ some (.setTargetRevision revision)) →
      ∃ revision rest, calls = .openRoot revision :: rest ∧
        follows (.editing .root) rest = some .finished := by
    intro target calls followed notTarget
    cases calls with
    | nil => cases followed
    | cons call rest =>
        cases call with
        | openRoot revision => exact ⟨revision, rest, rfl, by cases target <;> exact followed⟩
        | setTargetRevision revision => exact absurd rfl (notTarget revision)
        | _ => cases target <;> cases followed
  rw [Obeys] at obeys
  by_cases targeted : ∃ target rest, drive = .setTargetRevision target :: rest
  · obtain ⟨target, rest, rfl⟩ := targeted
    have followed : follows (.started (some target)) rest = some .finished := obeys
    obtain ⟨revision, rest, rfl, afterRoot⟩ := fromRoot followed (by
      intro revision first
      obtain ⟨rest, rfl⟩ := List.head?_eq_some_iff.mp first
      cases followed)
    exact ⟨target, revision, rest, afterRoot, .inr rfl⟩
  · obtain ⟨revision, rest, rfl, afterRoot⟩ := fromRoot obeys (by
      intro revision first
      obtain ⟨rest, rfl⟩ := List.head?_eq_some_iff.mp first
      exact targeted ⟨_, _, rfl⟩)
    exact ⟨none, revision, rest, afterRoot, .inl ⟨rfl, rfl⟩⟩

/-- The parser that is inside the package. -/
def startedParser (basePath : Bytes) (baseRevision target revision : Revision) (known : Nat) : Digger :=
  { (makeXmlParser basePath baseRevision).call (.setTargetRevision (some known)) with
    baseRevision := some known
    stack := [{ newFrame .deltaPkg { baseRev := revision, targetRev := target } with
      ancestorPath := some basePath
      ancestorRevision := some known }] }

theorem startDeltaPkg_root {known : Nat} (isKnown : baseRevision.or target = some known) :
    xmlParse [packageStart revision target] (makeXmlParser basePath baseRevision) =
      .ok (startedParser basePath baseRevision target revision known) := by
  rw [xmlParse_singleton, packageStart, xmlHandle, xmlHandleStart]
  have started : startDeltaPkg (makeXmlParser basePath baseRevision)
      (newFrame .deltaPkg { baseRev := revision, targetRev := target })
      { baseRev := revision, targetRev := target } =
      .ok ({ (makeXmlParser basePath baseRevision).call (.setTargetRevision (some known)) with
        baseRevision := some known },
        { newFrame .deltaPkg { baseRev := revision, targetRev := target } with
          ancestorPath := some basePath
          ancestorRevision := some known }) := by
    rw [startDeltaPkg, show (makeXmlParser basePath baseRevision).baseRevision = baseRevision from rfl,
      isKnown]
    rfl
  simp only [started, bind, Except.bind]
  rfl

theorem startDeltaPkg_fails (unknown : baseRevision.or target = none) (events : List XmlEvent) :
    xmlParse (packageStart revision target :: events) (makeXmlParser basePath baseRevision) =
      .error ⟨[], .xmlMissingAncestry,
        "xml_handle_start: no valid target revision provided!"⟩ := by
  have failed : startDeltaPkg (makeXmlParser basePath baseRevision)
      (newFrame .deltaPkg { baseRev := revision, targetRev := target })
      { baseRev := revision, targetRev := target } = .error ⟨[], .xmlMissingAncestry,
        "xml_handle_start: no valid target revision provided!"⟩ := by
    rw [startDeltaPkg, show (makeXmlParser basePath baseRevision).baseRevision = baseRevision from rfl,
      unknown]
    rfl
  rw [xmlParse, packageStart, xmlHandle, xmlHandleStart]
  simp only [failed, bind, Except.bind]

theorem root_related (known : Nat) : Related .root (openedEditor target)
    (startedParser basePath baseRevision target revision known) false :=
  ⟨⟨List.nodup_nil, (fun _ member => by cases member), rfl, rfl, Nat.one_pos,
    (fun _ member => by cases member), (fun _ _ none => by cases none), rfl, rfl⟩,
    .package rfl rfl rfl ⟨rfl, rfl, rfl⟩ rfl rfl⟩

/-- With a revision to go to, the drive is replayed from its beginning. -/
theorem drive_replay (basePath : Bytes) (revision : Revision) {known : Nat} {rest : List Call} {last : Stage}
    (isKnown : baseRevision.or target = some known) (noCopy : ∀ call ∈ rest, ¬call.Copies)
    (noRoot : ∀ call ∈ rest, ¬call.ChangesRoot)
    (followed : follows (.editing .root) rest = some last) :
    ∃ ends events final,
      (∀ more, writeCalls { getXmlEditor with targetRevision := target }
        (.openRoot revision :: (rest ++ more)) = (writeCalls ends more).map (events ++ ·)) ∧
      xmlParse events (makeXmlParser basePath baseRevision) = .ok final ∧
      RelatedStage ends final last ∧
      final.calls.map Call.bare =
        .setTargetRevision (some known) :: heardAll (.editing .root) rest := by
  have started : xmlParse [packageStart revision target] (makeXmlParser basePath baseRevision) = _ :=
    startDeltaPkg_root isKnown
  obtain ⟨ends, events, final, writes, parses, related, calls⟩ :=
    writeCalls_replay (show RelatedStage _ _ (.editing .root) from root_related known) noCopy noRoot
      followed
  refine ⟨ends, packageStart revision target :: events, final, ?_, ?_, related, calls⟩
  · intro more
    rw [writeCalls_openRoot, writes, Option.map_map]
    rfl
  · rw [← List.singleton_append, xmlParse_append_ok started]
    exact parses

end Opening

end Subversion.Delta.Xml
