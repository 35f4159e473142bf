/-
This file shows which property changes survive the XML form of a tree delta.
-/

import Subversion.Delta.XmlRoundTrip

namespace Subversion.Delta.Xml

open Subr

def Call.isProp : Call → Bool
  | .changeProp _ _ _ _ => true
  | _ => false

/-- The calls up to an error stay made. -/
def made : Except Bailout (List Call) → List Call
  | .ok calls => calls
  | .error bailout => bailout.calls

/-- A drive is written, and its property changes come back, each of them once. -/
def PropsReplayed (basePath : Bytes) (baseRevision : Revision) (drive : List Call) : Prop :=
  ∃ events, writeCalls getXmlEditor drive = some events ∧
    ((made (xmlAutoParse basePath baseRevision events)).filter Call.isProp).Perm
      (drive.filter Call.isProp)

/-- The parser knows a revision to go to. -/
def Targeted (baseRevision : Revision) (drive : List Call) : Prop :=
  baseRevision ≠ none ∨ ∃ revision, Call.setTargetRevision (some revision) ∈ drive

section Heard

variable {tree : Editing} {stage last : Stage} {rest : List Call}

theorem filter_bare (calls : List Call) :
    (calls.map Call.bare).filter Call.isProp = calls.filter Call.isProp := by
  induction calls with
  | nil => rfl
  | cons call calls step =>
      rw [List.map_cons, List.filter_cons, List.filter_cons, step]
      cases call with
      | _ => rfl

theorem sent_noEmpty (value : Option Bytes) : sent value ≠ some [] := by
  rw [sent]
  split
  · simp
  · assumption

/-- Only a property change is heard as one, and once. -/
theorem filter_heard (call : Call) :
    (tree.heard call).filter Call.isProp = if call.isProp then tree.heard call else [] := by
  cases call with
  | deleteEntry | addOpen =>
      rw [Editing.heard]
      split <;> simp [Call.isProp, Call.named, Call.bare]
  | changeProp dirfile =>
      cases dirfile with
      | dir | file => rfl
  | closeDirectory =>
      rw [Editing.heard]
      split <;> rfl
  | _ => rfl

theorem length_heard (call : Call) :
    ((tree.heard call).filter Call.isProp).length = ([call].filter Call.isProp).length := by
  rw [filter_heard]
  cases call with
  | changeProp dirfile =>
      cases dirfile with
      | dir | file => rfl
  | _ => rfl

/-- The root was opened. -/
def Stage.Entered : Stage → Prop
  | .started _ => False
  | _ => True

/-- What one call tells of properties when the root was opened. -/
theorem heard_entered {call : Call} {next : Stage} (entered : stage.Entered)
    (stepped : follow stage call = some next) :
    next.Entered ∧ ((∃ tree, stage = .editing tree) ∨
      (heard stage call).filter Call.isProp = [] ∧ call.isProp = false) := by
  cases stage with
  | started target => cases entered
  | editing tree =>
      refine ⟨?_, .inl ⟨tree, rfl⟩⟩
      rcases follow_cases stepped with ⟨next, rfl, -⟩ | ⟨-, -, rfl⟩
      · trivial
      · trivial
  | texts waiting done =>
      rcases follow_late stepped with ⟨file, handled, rfl, -, -, rfl⟩ | ⟨file, rfl, -, rfl⟩ |
        ⟨rfl, -, -, rfl⟩
      · exact ⟨trivial, .inr ⟨rfl, rfl⟩⟩
      · exact ⟨trivial, .inr ⟨rfl, rfl⟩⟩
      · exact ⟨trivial, .inr ⟨rfl, rfl⟩⟩
  | finished => cases call <;> cases stepped

/-- No empty value is heard. -/
theorem heardAll_noEmpty {call : Call} (entered : stage.Entered)
    (followed : follows stage rest = some last)
    (member : call ∈ (heardAll stage rest).filter Call.isProp) : ¬call.SetsEmpty := by
  induction rest generalizing stage with
  | nil => cases member
  | cons first rest step =>
      obtain ⟨next, stepped, afterwards⟩ := follows_cons followed
      obtain ⟨enteredNext, cases⟩ := heard_entered entered stepped
      rw [heardAll, stepped, List.filter_append, List.mem_append] at member
      rcases member with now | later
      · rcases cases with ⟨tree, rfl⟩ | ⟨nothing, -⟩
        · replace now : call ∈ (tree.heard first).filter Call.isProp := now
          rw [filter_heard] at now
          cases first with
          | changeProp dirfile =>
              cases dirfile with
              | dir | file =>
                  rw [List.mem_singleton.mp now]
                  exact sent_noEmpty _
          | _ => cases now
        · rw [nothing] at now
          cases now
      · exact step enteredNext afterwards later

/-- As many property changes are heard as there are. -/
theorem length_heardAll (entered : stage.Entered) (followed : follows stage rest = some last) :
    ((heardAll stage rest).filter Call.isProp).length = (rest.filter Call.isProp).length := by
  induction rest generalizing stage with
  | nil => rfl
  | cons call rest step =>
      obtain ⟨next, stepped, afterwards⟩ := follows_cons followed
      obtain ⟨enteredNext, cases⟩ := heard_entered entered stepped
      rw [heardAll, stepped, List.filter_append, List.length_append]
      simp only [step enteredNext afterwards]
      rw [← List.singleton_append, List.filter_append, List.length_append]
      congr 1
      rcases cases with ⟨tree, rfl⟩ | ⟨nothing, other⟩
      · exact length_heard call
      · rw [nothing]
        simp [other]

theorem filter_texts {waiting done : List Nat}
    (followed : follows (.texts waiting done) rest = some last) : rest.filter Call.isProp = [] := by
  induction rest generalizing waiting done with
  | nil => rfl
  | cons call rest step =>
      obtain ⟨next, stepped, afterwards⟩ := follows_cons followed
      rcases follow_late stepped with ⟨file, handled, rfl, -, -, rfl⟩ | ⟨file, rfl, -, rfl⟩ |
        ⟨rfl, -, -, rfl⟩
      · exact step afterwards
      · exact step afterwards
      · obtain ⟨rfl, -⟩ := follows_finished afterwards
        rfl

theorem noEditing_texts {waiting done : List Nat} (ends : Editing) :
    follows (.texts waiting done) rest ≠ some (.editing ends) := by
  intro followed
  induction rest generalizing waiting done with
  | nil => cases followed
  | cons call rest step =>
      obtain ⟨next, stepped, afterwards⟩ := follows_cons followed
      rcases follow_late stepped with ⟨file, handled, rfl, -, -, rfl⟩ | ⟨file, rfl, -, rfl⟩ |
        ⟨rfl, -, -, rfl⟩
      · exact step afterwards
      · exact step afterwards
      · cases (follows_finished afterwards).2

/-- In a plain drive the property changes are heard as they are. -/
theorem filter_heardAll {before : List Call} (history : History before tree)
    (plain : Plain (before ++ rest)) (followed : follows (.editing tree) rest = some last) :
    (heardAll (.editing tree) rest).filter Call.isProp = rest.filter Call.isProp := by
  induction rest generalizing tree before with
  | nil => rfl
  | cons call rest step =>
      obtain ⟨stage, stepped, afterwards⟩ := follows_cons followed
      have now : (heard (.editing tree) call).filter Call.isProp = [call].filter Call.isProp := by
        show (tree.heard call).filter _ = _
        rw [filter_heard]
        cases call with
        | changeProp dirfile baton name value => exact heard_changeProp history plain stepped
        | _ => rfl
      rw [heardAll, stepped, List.filter_append, ← List.singleton_append, List.filter_append, now]
      congr 1
      rcases follow_cases stepped with ⟨next, rfl, moves⟩ | ⟨-, -, rfl⟩
      · apply step (history.step moves) _ afterwards
        rwa [List.append_assoc]
      · have nothing := filter_texts afterwards
        have length := length_heardAll (show Stage.Entered (.texts tree.pending []) from trivial) afterwards
        rw [nothing] at length
        rw [nothing, List.eq_nil_of_length_eq_zero length]

theorem heardAll_append {after : List Call} (followed : follows stage rest = some last) :
    heardAll stage (rest ++ after) = heardAll stage rest ++ heardAll last after := by
  induction rest generalizing stage with
  | nil =>
      obtain rfl := Option.some.inj followed
      rfl
  | cons call rest step =>
      obtain ⟨next, stepped, afterwards⟩ := follows_cons followed
      rw [List.cons_append, heardAll, heardAll, stepped]
      simp only [step afterwards, List.append_assoc]

theorem history_run {before : List Call} {ends : Editing} (history : History before tree)
    (followed : follows (.editing tree) rest = some (.editing ends)) :
    History (before ++ rest) ends := by
  induction rest generalizing tree before with
  | nil =>
      obtain rfl := Stage.editing.inj (Option.some.inj followed)
      rwa [List.append_nil]
  | cons call rest step =>
      obtain ⟨stage, stepped, afterwards⟩ := follows_cons followed
      rcases follow_cases stepped with ⟨next, rfl, moves⟩ | ⟨-, -, rfl⟩
      · rw [List.append_cons]
        exact step (history.step moves) afterwards
      · exact absurd afterwards (noEditing_texts ends)

/-- Each property change is on a baton. -/
theorem prop_baton {dirfile : DirFile} {name : Bytes} {value : Option Bytes}
    (followed : follows (.editing tree) rest = some last) :
    .changeProp dirfile none name value ∉ rest := by
  induction rest generalizing tree with
  | nil => exact List.not_mem_nil
  | cons call rest step =>
      obtain ⟨stage, stepped, afterwards⟩ := follows_cons followed
      intro member
      rcases follow_cases stepped with ⟨next, rfl, moves⟩ | ⟨rfl, -, rfl⟩
      · rcases List.mem_cons.mp member with rfl | later
        · cases moves
        · exact step afterwards later
      · rcases List.mem_cons.mp member with same | later
        · cases same
        · have isProp : Call.changeProp dirfile none name value ∈ rest.filter Call.isProp :=
            List.mem_filter.mpr ⟨later, rfl⟩
          rw [filter_texts afterwards] at isProp
          cases isProp

/-- A change after a subdirectory is heard without a baton. -/
theorem heardAll_late {before after opening : List Call} {dir : Baton} {name : Bytes}
    {value : Option Bytes} (history : History opening tree)
    (followed : follows (.editing tree) (before ++ .changeProp .dir dir name value :: after) = some last)
    (below : ∃ call ∈ opening ++ before, call.OpensBelow dir) :
    .changeProp .dir none name (sent value) ∈
      heardAll (.editing tree) (before ++ .changeProp .dir dir name value :: after) := by
  obtain ⟨stage, first, second⟩ := follows_append followed
  obtain ⟨next, stepped, afterwards⟩ := follows_cons second
  rw [heardAll_append first, List.mem_append]
  right
  rw [heardAll, List.mem_append]
  left
  cases stage with
  | editing ends =>
      replace stepped : ends.follow (.changeProp .dir dir name value) = some next := stepped
      rw [changeDirProp_baton stepped] at below
      have marked := (history_run history first).marked.mpr below
      have now : heard (.editing ends) (.changeProp .dir dir name value) =
          [.changeProp .dir (if ends.dir.subdirs then none else dir) name (sent value)] := rfl
      rw [now, if_pos marked]
      exact List.mem_cons_self
  | started target => cases target <;> cases stepped
  | texts waiting done =>
      rcases follow_late stepped with ⟨_, _, same, -⟩ | ⟨_, same, -⟩ | ⟨same, -⟩ <;> cases same
  | finished => cases stepped

end Heard

section Fails

variable {tree : Editing} {eb : EditBaton} {digger : Digger}

/-- A copy is not written. -/
theorem writeCalls_noCopy {drive : List Call} {events : List XmlEvent}
    (written : writeCalls eb drive = some events) : ∀ call ∈ drive, ¬call.Copies := by
  induction drive generalizing eb events with
  | nil => exact fun call member => by cases member
  | cons first drive step =>
      simp only [writeCalls, Option.bind_eq_bind, Option.bind_eq_some_iff] at written
      obtain ⟨output, now, more, later, -⟩ := written
      intro call member
      rcases List.mem_cons.mp member with rfl | inDrive
      · intro copies
        cases call with
        | addOpen addopen dirfile path parent copyPath revision =>
            cases addopen with
            | opened => exact copies
            | add =>
                simp only [writeCall, outputAddopen, Option.bind_eq_bind, Option.bind_eq_some_iff] at now
                obtain ⟨_, ⟨_, _, failed⟩, _⟩ := now
                rw [if_pos ⟨trivial, copies⟩] at failed
                cases failed
        | _ => exact copies
      · exact step later call inDrive

theorem xmlHandle_rootProps {package : Frame} {older : List Frame}
    (stack : digger.stack = package :: older) (tag : package.tag = .deltaPkg) :
    xmlHandle digger (.start .propDelta {}) =
      .error ⟨digger.calls, xmlValidationError .propDelta false⟩ := by
  have rejected : doStackAppend digger (newFrame .propDelta {}) =
      .error (xmlValidationError .propDelta false) := by
    rw [doStackAppend, stack]
    exact if_neg (by simp [mayFollow, newFrame, tag])
  rw [xmlHandle_start_eq digger _ (by simp), rejected]
  rfl

theorem xmlParse_error {events more : List XmlEvent} {event : XmlEvent} {middle : Digger}
    {bailout : Bailout} (parsed : xmlParse events digger = .ok middle)
    (failed : xmlHandle middle event = .error bailout) :
    xmlParse (events ++ event :: more) digger = .error bailout := by
  rw [xmlParse_append_ok parsed, xmlParse, failed]
  rfl

theorem outputPropset_events {elem : ElemType} {reached output : Output} {name : Bytes}
    {value : Option Bytes} (wound : getToElem eb elem = some reached)
    (written : outputPropset eb elem name value = some output) :
    ∃ tail, output.2 = reached.2 ++ tail := by
  simp only [outputPropset, wound, bind, Option.bind] at written
  cases value with
  | none | some =>
      rw [← Option.some.inj written]
      exact ⟨_, rfl⟩

/-- The properties of the root are written where the parser takes none. -/
theorem rootProps_fail {name : Bytes} {value : Option Bytes} {dir : Baton} {next : Stage}
    {output : Output} (related : Related tree eb digger tree.begun) (alone : tree.outer = [])
    (followed : tree.follow (.changeProp .dir dir name value) = some next)
    (written : writeCall eb (.changeProp .dir dir name value) = some output)
    (more : List XmlEvent) :
    ∃ bailout, xmlParse (output.2 ++ more) digger = .error bailout ∧
      bailout.calls.filter Call.isProp = digger.calls.filter Call.isProp := by
  simp only [Editing.follow, Option.bind_eq_bind, Option.bind_eq_some_iff] at followed
  obtain ⟨left, leaves, -⟩ := followed
  obtain ⟨-, sameOuter, -⟩ := leaveFile_keeps leaves
  rw [← sameOuter] at alone
  obtain ⟨unwoundOutput, unwound, files, noFile, noProps⟩ := unwindFiles_reaches related leaves
    (show ElemType.dirPropDelta ≠ .file ∧ ElemType.dirPropDelta ≠ .filePropDelta by simp)
  obtain ⟨middle, parsed, reached, calls⟩ := files
  have place := reached.place
  generalize tree.begun = begun at place
  cases place with
  | package elem root stack package made =>
      replace elem : unwoundOutput.1.elem = .dir := elem
      have wound : getToElem eb .dirPropDelta = some ({ unwoundOutput.1 with elem := .dirPropDelta },
          ((unwindFileProps eb .dirPropDelta).2 ++ unwoundOutput.2) ++ [.start .propDelta {}]) := by
        simp [getToElem, unwound, unwindTree, unwindDirProps, windTree, windProps, elem]
      obtain ⟨tail, events⟩ := outputPropset_events wound written
      refine ⟨⟨middle.calls, xmlValidationError .propDelta false⟩, ?_, ?_⟩
      · rw [events, List.append_assoc, List.append_assoc, List.singleton_append]
        exact xmlParse_error parsed (xmlHandle_rootProps stack package.tag)
      · simp [calls]
  | @tree frame frames elem _ stack isTree inside =>
      replace elem : unwoundOutput.1.elem = .treeDelta := elem
      have wound : getToElem eb .dirPropDelta = some ({ unwoundOutput.1 with elem := .dirPropDelta },
          ((unwindFileProps eb .dirPropDelta).2 ++ unwoundOutput.2) ++
            [.finish .treeDelta, .start .propDelta {}]) := by
        simp [getToElem, unwound, unwindTree, unwindDirProps, windTree, windProps, elem]
      obtain ⟨tail, events⟩ := outputPropset_events wound written
      obtain ⟨nest, -⟩ := inside
      rw [alone] at nest
      cases nest with
      | @root _ package first isPackage =>
          have ends := xmlHandle_finish .treeDelta stack isTree.tag
          rw [endEvent, isTree.tag] at ends
          simp only [List.head?_cons, Option.map_some, isPackage.tag, if_true] at ends
          have closed : (doCloseDirectory middle frame).pop.stack = [package] := by
            simp [Digger.pop, doCloseDirectory, Digger.call, stack]
          refine ⟨⟨(doCloseDirectory middle frame).pop.calls, xmlValidationError .propDelta false⟩,
            ?_, ?_⟩
          · rw [events, List.append_assoc, List.append_assoc, List.cons_append, List.singleton_append,
              List.append_cons]
            exact xmlParse_error ((xmlParse_append_ok parsed).trans
              ((xmlParse_singleton _ _).trans ends)) (xmlHandle_rootProps closed isPackage.tag)
          · simp [Digger.pop, doCloseDirectory, Digger.call, calls, Call.isProp]
  | dir _ _ below | dirProps _ _ below => contradiction
  | file elem | fileProps elem => contradiction

theorem exists_first {α : Type} {holds : α → Prop} {values : List α}
    (found : ∃ value ∈ values, holds value) : ∃ before value after,
      values = before ++ value :: after ∧ holds value ∧ ∀ other ∈ before, ¬holds other := by
  induction values with
  | nil =>
      obtain ⟨value, member, -⟩ := found
      cases member
  | cons first values step =>
      by_cases now : holds first
      · exact ⟨[], first, values, rfl, now, fun other member => by cases member⟩
      · obtain ⟨value, member, later⟩ := found
        have inValues : value ∈ values := by
          rcases List.mem_cons.mp member with rfl | inValues
          · exact absurd later now
          · exact inValues
        obtain ⟨before, value, after, split, holdsValue, others⟩ := step ⟨value, inValues, later⟩
        refine ⟨first :: before, value, after, by rw [split]; rfl, holdsValue, ?_⟩
        intro other inBefore
        rcases List.mem_cons.mp inBefore with rfl | earlier
        · exact now
        · exact others other earlier

end Fails

section Whole

variable {basePath : Bytes} {baseRevision target revision : Revision} {rest : List Call}
  {events : List XmlEvent}

/-- What is asked of the part of a drive after the root was opened. -/
def Replayed (basePath : Bytes) (baseRevision : Revision) (events : List XmlEvent)
    (rest : List Call) : Prop :=
  ((made (xmlAutoParse basePath baseRevision events)).filter Call.isProp).Perm
    (rest.filter Call.isProp)

/-- Without a revision to go to nothing is heard. -/
theorem made_untargeted (unknown : baseRevision.or target = none)
    (written : writeCalls { getXmlEditor with targetRevision := target }
      (.openRoot revision :: rest) = some events) :
    made (xmlAutoParse basePath baseRevision events) = [] := by
  rw [writeCalls_openRoot, Option.map_eq_some_iff] at written
  obtain ⟨more, -, rfl⟩ := written
  rw [xmlAutoParse, startDeltaPkg_fails unknown]
  rfl

/-- All property changes are heard when none is on the root. -/
theorem made_targeted (basePath : Bytes) (baseRevision target revision : Revision) {known : Nat} {last : Stage} (isKnown : baseRevision.or target = some known)
    (noCopy : ∀ call ∈ rest, ¬call.Copies) (noRoot : ∀ call ∈ rest, ¬call.ChangesRoot)
    (followed : follows (.editing .root) rest = some last) :
    ∃ events, writeCalls { getXmlEditor with targetRevision := target }
        (.openRoot revision :: rest) = some events ∧
      (made (xmlAutoParse basePath baseRevision events)).filter Call.isProp =
        (heardAll (.editing .root) rest).filter Call.isProp := by
  obtain ⟨ends, events, final, writes, parses, -, calls⟩ :=
    drive_replay basePath revision isKnown noCopy noRoot followed
  have written := writes []
  rw [List.append_nil] at written
  refine ⟨events, by simpa [writeCalls] using written, ?_⟩
  have result : made (xmlAutoParse basePath baseRevision events) = final.calls ++ [.closeEdit] := by
    rw [xmlAutoParse, parses]
    rfl
  rw [result, List.filter_append, ← filter_bare, calls]
  simp [Call.isProp]

/-- A change on the root stops the parser, so that this change is not heard. -/
theorem length_made_root (basePath : Bytes) {known : Nat} {last : Stage} (isKnown : baseRevision.or target = some known)
    (noCopy : ∀ call ∈ rest, ¬call.Copies) (changes : ∃ call ∈ rest, call.ChangesRoot)
    (followed : follows (.editing .root) rest = some last)
    (written : writeCalls { getXmlEditor with targetRevision := target }
      (.openRoot revision :: rest) = some events) :
    ((made (xmlAutoParse basePath baseRevision events)).filter Call.isProp).length <
      (rest.filter Call.isProp).length := by
  obtain ⟨before, call, after, rfl, changesRoot, noRoot⟩ := exists_first changes
  obtain ⟨stage, first, second⟩ := follows_append followed
  obtain ⟨next, stepped, -⟩ := follows_cons second
  obtain ⟨ends, early, middle, writes, parses, related, calls⟩ :=
    drive_replay basePath revision isKnown
      (fun call member => noCopy call (List.mem_append_left _ member)) noRoot first
  rw [writes, Option.map_eq_some_iff] at written
  obtain ⟨more, written, rfl⟩ := written
  simp only [writeCalls, Option.bind_eq_bind, Option.bind_eq_some_iff] at written
  obtain ⟨output, now, later, -, same⟩ := written
  obtain rfl := Option.some.inj same
  obtain ⟨dir, name, value, rfl, isRoot⟩ : ∃ dir name value, call = .changeProp .dir dir name value ∧
      dir = some 0 := by
    cases call with
    | changeProp dirfile dir name value =>
        cases dirfile with
        | file => cases changesRoot
        | dir => exact ⟨dir, name, value, rfl, changesRoot⟩
    | _ => cases changesRoot
  cases stage with
  | editing tree =>
      have history := history_run (root_history [] fun _ member => by cases member) first
      have baton := changeDirProp_baton (show tree.follow (.changeProp .dir dir name value) = _ from
        stepped)
      have alone := history.alone_of_root (Option.some.inj (baton.symm.trans isRoot))
      obtain ⟨bailout, failed, heardProps⟩ := rootProps_fail related alone stepped now later
      have result : made (xmlAutoParse basePath baseRevision (early ++ (output.2 ++ later))) =
          bailout.calls := by
        rw [xmlAutoParse, xmlParse_append_ok parses, failed]
        rfl
      have counted := length_heardAll (show Stage.Entered (.editing .root) from trivial) first
      rw [result, heardProps, ← filter_bare, calls,
        List.filter_cons_of_neg (by simp [Call.isProp]), counted, List.filter_append,
        List.length_append, List.filter_cons_of_pos (by rfl), List.length_cons]
      omega
  | started target => cases target <;> cases stepped
  | texts waiting done =>
      rcases follow_late stepped with ⟨_, _, same, -⟩ | ⟨_, same, -⟩ | ⟨same, -⟩ <;> cases same
  | finished => cases stepped

/-- Property changes that are not plain are not heard as they are. -/
theorem plain_of_replayed {known : Nat} (isKnown : baseRevision.or target = some known)
    (followed : follows (.editing .root) rest = some .finished)
    (written : writeCalls { getXmlEditor with targetRevision := target }
      (.openRoot revision :: rest) = some events)
    (replayed : Replayed basePath baseRevision events rest) : Plain rest := by
  have noCopy : ∀ call ∈ rest, ¬call.Copies := fun call member =>
    writeCalls_noCopy written call (.tail _ member)
  have noRoot : ∀ call ∈ rest, ¬call.ChangesRoot := by
    by_contra changes
    push Not at changes
    have fewer := length_made_root basePath isKnown noCopy changes followed written
    rw [replayed.length_eq] at fewer
    exact lt_irrefl _ fewer
  obtain ⟨same, writtenSame, result⟩ := made_targeted basePath baseRevision target revision
    isKnown noCopy noRoot followed
  obtain rfl := Option.some.inj (written.symm.trans writtenSame)
  rw [Replayed, result] at replayed
  refine ⟨noCopy, noRoot, ?_, ?_⟩
  · intro before after dir name value split call member below
    subst split
    have late := heardAll_late (root_history [] fun _ member => by cases member) followed
      ⟨call, member, below⟩
    have inDrive := replayed.mem_iff.mp (List.mem_filter.mpr ⟨late, rfl⟩)
    exact prop_baton followed (List.mem_filter.mp inDrive).1
  · intro call member empty
    have isProp : call.isProp = true := by
      cases call with
      | changeProp => rfl
      | _ => cases empty
    have heard := replayed.mem_iff.mpr (List.mem_filter.mpr ⟨member, isProp⟩)
    exact heardAll_noEmpty (show Stage.Entered (.editing .root) from trivial) followed heard empty

end Whole

/-- The condition under which all property changes come back. -/
structure Survives (baseRevision : Revision) (drive : List Call) : Prop where
  plain : Plain drive
  targeted : Targeted baseRevision drive ∨ ∀ call ∈ drive, call.isProp = false

section Openings

variable {opening rest : List Call}

/-- These calls come before all others. -/
def Call.Opens : Call → Prop
  | .setTargetRevision _ => True
  | .openRoot _ => True
  | _ => False

theorem Call.Opens.harmless {call : Call} (opens : call.Opens) :
    call.isProp = false ∧ ¬call.Copies ∧ ¬call.ChangesRoot ∧ ¬call.SetsEmpty ∧
      ∀ dir, ¬call.OpensBelow dir := by
  cases call with
  | setTargetRevision | openRoot => exact ⟨rfl, id, id, id, fun _ => id⟩
  | _ => cases opens

theorem filter_opening (opens : ∀ call ∈ opening, call.Opens) :
    (opening ++ rest).filter Call.isProp = rest.filter Call.isProp := by
  have nothing : opening.filter Call.isProp = [] := by
    apply List.filter_eq_nil_iff.mpr
    intro call member
    simp [(opens call member).harmless.1]
  rw [List.filter_append, nothing, List.nil_append]

theorem plain_opening (opens : ∀ call ∈ opening, call.Opens) :
    Plain (opening ++ rest) ↔ Plain rest := by
  have either : ∀ {holds : Call → Prop}, (∀ call ∈ opening, ¬holds call) →
      ((∀ call ∈ opening ++ rest, ¬holds call) ↔ ∀ call ∈ rest, ¬holds call) := by
    intro holds nothing
    constructor
    · exact fun all call member => all call (List.mem_append_right _ member)
    · intro all call member
      rcases List.mem_append.mp member with first | later
      · exact nothing call first
      · exact all call later
  have noCopy := either (fun call member => (opens call member).harmless.2.1)
  have noRoot := either (fun call member => (opens call member).harmless.2.2.1)
  have noEmpty := either (fun call member => (opens call member).harmless.2.2.2.1)
  constructor
  · intro plain
    refine ⟨noCopy.mp plain.noCopy, noRoot.mp plain.noRoot, ?_, noEmpty.mp plain.noEmpty⟩
    intro before after dir name value split call member
    apply plain.early (opening ++ before) after dir name value _ call (List.mem_append_right _ member)
    rw [split, List.append_assoc]
  · intro plain
    refine ⟨noCopy.mpr plain.noCopy, noRoot.mpr plain.noRoot, ?_, noEmpty.mpr plain.noEmpty⟩
    intro before after dir name value split call member
    rcases List.append_eq_append_iff.mp split with ⟨middle, rfl, rest⟩ | ⟨middle, whole, rest⟩
    · rcases List.mem_append.mp member with first | later
      · exact (opens call first).harmless.2.2.2.2 dir
      · exact plain.early middle after dir name value rest call later
    · cases middle with
      | nil =>
          rw [List.append_nil] at whole
          rw [← whole] at member
          exact (opens call member).harmless.2.2.2.2 dir
      | cons first middle =>
          have isOpening : Call.changeProp .dir dir name value ∈ opening := by
            rw [whole, (List.cons.inj rest).1]
            exact List.mem_append_right _ List.mem_cons_self
          cases (opens _ isOpening)

end Openings

section Condition

variable {baseRevision target revision : Revision} {rest : List Call}

theorem targeted_root (noTarget : ∀ revision, .setTargetRevision revision ∉ rest) :
    Targeted baseRevision (.openRoot revision :: rest) ↔ baseRevision.or none ≠ none := by
  rw [Option.or_none, Targeted]
  simp [noTarget]

theorem targeted_set (noTarget : ∀ revision, .setTargetRevision revision ∉ rest) :
    Targeted baseRevision (.setTargetRevision target :: .openRoot revision :: rest) ↔
      baseRevision.or target ≠ none := by
  rw [Targeted, ne_eq, ne_eq, Option.or_eq_none_iff, not_and_or]
  simp only [List.mem_cons, Call.setTargetRevision.injEq, reduceCtorEq, noTarget, or_false]
  rw [← ne_eq target, Option.ne_none_iff_exists']
  simp only [eq_comm]

/-- Without property changes only copies matter. -/
theorem plain_of_noProps (noCopy : ∀ call ∈ rest, ¬call.Copies)
    (noProps : ∀ call ∈ rest, call.isProp = false) : Plain rest := by
  refine ⟨noCopy, ?_, ?_, ?_⟩
  · intro call member changes
    have other := noProps call member
    cases call with
    | changeProp => cases other
    | _ => exact changes
  · intro before after dir name value split
    have other := noProps (.changeProp .dir dir name value) (by rw [split]; simp)
    cases other
  · intro call member empty
    have other := noProps call member
    cases call with
    | changeProp => cases other
    | _ => exact empty

theorem noProps_iff : (∀ call ∈ rest, call.isProp = false) ↔ rest.filter Call.isProp = [] := by
  rw [List.filter_eq_nil_iff]
  simp

end Condition

/-- Property changes come back exactly when they are plain and there is a revision to go to. -/
theorem propsReplayed_iff (basePath : Bytes) (baseRevision : Revision) {drive : List Call}
    (obeys : Obeys drive) :
    PropsReplayed basePath baseRevision drive ↔ Survives baseRevision drive := by
  obtain ⟨target, revision, rest, followed, opens⟩ := obeys.opening
  have noTarget := noTarget_editing followed
  obtain ⟨opening, rfl, allOpen, written, targeted⟩ : ∃ opening, drive = opening ++ rest ∧
      (∀ call ∈ opening, call.Opens) ∧ writeCalls getXmlEditor drive =
        writeCalls { getXmlEditor with targetRevision := target } (.openRoot revision :: rest) ∧
      (Targeted baseRevision drive ↔ baseRevision.or target ≠ none) := by
    rcases opens with ⟨rfl, rfl⟩ | rfl
    · exact ⟨[.openRoot revision], rfl, by simp [Call.Opens], rfl, targeted_root noTarget⟩
    · refine ⟨[.setTargetRevision target, .openRoot revision], rfl, by simp [Call.Opens], ?_,
        targeted_set noTarget⟩
      have set : writeCall getXmlEditor (.setTargetRevision target) =
          some ({ getXmlEditor with targetRevision := target }, []) := rfl
      rw [writeCalls_cons set]
      simp
  rw [PropsReplayed, written, filter_opening allOpen]
  constructor
  · intro replays
    obtain ⟨events, writes, replayed⟩ := replays
    by_cases noProps : rest.filter Call.isProp = []
    · have noCopy : ∀ call ∈ rest, ¬call.Copies := fun call member =>
        writeCalls_noCopy writes call (.tail _ member)
      refine ⟨(plain_opening allOpen).mpr (plain_of_noProps noCopy (noProps_iff.mpr noProps)), .inr ?_⟩
      rw [noProps_iff, filter_opening allOpen]
      exact noProps
    · have known : baseRevision.or target ≠ none := by
        intro unknown
        rw [made_untargeted unknown writes] at replayed
        exact noProps (List.nil_perm.mp replayed)
      obtain ⟨revision, isKnown⟩ := Option.ne_none_iff_exists'.mp known
      exact ⟨(plain_opening allOpen).mpr (plain_of_replayed isKnown followed writes replayed),
        .inl (targeted.mpr known)⟩
  · intro survives
    obtain ⟨plain, revisions⟩ := survives
    have plainRest := (plain_opening allOpen).mp plain
    cases given : baseRevision.or target with
    | some known =>
        obtain ⟨events, writes, result⟩ := made_targeted basePath baseRevision target revision
          given plainRest.noCopy plainRest.noRoot followed
        refine ⟨events, writes, ?_⟩
        have history := root_history [] fun _ member => by cases member
        rw [result, filter_heardAll history plainRest followed]
    | none =>
        have noProps : ∀ call ∈ opening ++ rest, call.isProp = false :=
          revisions.resolve_left fun known => targeted.mp known given
        rw [noProps_iff, filter_opening allOpen] at noProps
        obtain ⟨events, writes, -⟩ := made_targeted basePath (some 0) target revision rfl plainRest.noCopy plainRest.noRoot followed
        refine ⟨events, writes, ?_⟩
        rw [made_untargeted given writes, noProps]
        rfl

theorem propsReplayed_iff_mixed : PropsReplayed [] none mixedDrive ↔ Survives none mixedDrive :=
  propsReplayed_iff [] none (by decide)

/-- The properties of a directory change after its subdirectory is closed. -/
def lateChange : List Call :=
  [.setTargetRevision (some 1), .openRoot none, .openDirectory [97] (some 0) none,
    .openDirectory [97, 47, 98] (some 1) none, .closeDirectory (some 2),
    .changeDirProp (some 1) [112] (some [118]), .closeDirectory (some 1), .closeDirectory (some 0),
    .closeEdit]

theorem late_change_has_no_baton : Obeys lateChange ∧ ¬PropsReplayed [] none lateChange := by
  refine ⟨by decide, ?_⟩
  intro replays
  obtain ⟨events, written, replayed⟩ := replays
  obtain rfl := Option.some.inj written
  exact absurd replayed (by decide)

end Subversion.Delta.Xml
