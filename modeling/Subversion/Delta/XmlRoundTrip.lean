/-
This file shows that an editor drive survives the XML form of a tree delta, apart from the order of
some calls at its end.
-/

import Subversion.Delta.XmlReplay

namespace Subversion.Delta.Xml

open Subr

namespace Call

/-- The parser may be given a revision that goes before the one of the drive. -/
def overridden (baseRevision : Revision) : Call → Call
  | .setTargetRevision revision => .setTargetRevision (baseRevision.or revision)
  | call => call

/-- What is kept of a call. -/
def kept (baseRevision : Revision) (call : Call) : Call := (call.overridden baseRevision).named.bare

/-- A file that waited for its text is closed right after it. -/
def late : Call → List Call
  | .applyTextdelta file handled => [.applyTextdelta file handled, .closeFile file]
  | .closeFile _ => []
  | call => [call]

def OpensFile : Call → Bool
  | .addOpen _ .file _ _ _ _ => true
  | _ => false

/-- An entry of the root is named. -/
def TouchesRoot : Call → Prop
  | .deleteEntry _ _ parent => parent = some 0
  | .addOpen _ _ _ parent _ _ => parent = some 0
  | _ => False

def SetsEmpty : Call → Prop
  | .changeProp _ _ _ value => value = some []
  | _ => False

end Call

/-- The order of the calls changes only after the root is closed. -/
def replayed : List Call → List Call
  | [] => []
  | call :: calls =>
      call :: if call = .closeDirectory (some 0) then calls.flatMap Call.late else replayed calls

/-- No entry is a copy, the properties of the root stay, the ones of a directory are changed before
its subdirectories are opened, and no value is empty. -/
structure Plain (drive : List Call) : Prop where
  noCopy : ∀ call ∈ drive, ¬call.Copies
  noRoot : ∀ call ∈ drive, ¬call.ChangesRoot
  early : ∀ before after dir name value, drive = before ++ .changeProp .dir dir name value :: after →
    ∀ call ∈ before, ¬call.OpensBelow dir
  noEmpty : ∀ call ∈ drive, ¬call.SetsEmpty

section Heard

variable (baseRevision : Revision) {tree : Editing} {before rest : List Call}

theorem sent_of_noEmpty {dirfile : DirFile} {baton : Baton} {name : Bytes} {value : Option Bytes}
    (noEmpty : ¬(Call.changeProp dirfile baton name value).SetsEmpty) : sent value = value :=
  if_neg noEmpty

theorem heardAll_texts {waiting done : List Nat}
    (followed : follows (.texts waiting done) rest = some .finished) :
    heardAll (.texts waiting done) rest ++ [.closeEdit] =
      (rest.map (Call.kept baseRevision)).flatMap Call.late := by
  induction rest generalizing waiting done with
  | nil => cases followed
  | cons call rest step =>
      obtain ⟨next, stepped, followed⟩ := follows_cons followed
      rw [heardAll, stepped, List.append_assoc, List.map_cons, List.flatMap_cons]
      rcases follow_late stepped with ⟨file, handled, rfl, -, -, rfl⟩ | ⟨file, rfl, -, rfl⟩ |
        ⟨rfl, rfl, rfl, rfl⟩
      · rw [step followed]
        rfl
      · rw [step followed]
        rfl
      · obtain ⟨rfl, -⟩ := follows_finished followed
        rfl

/-- In a plain drive no subdirectory was opened before the properties of a directory change. -/
theorem heard_changeProp {dirfile : DirFile} {baton : Baton} {name : Bytes} {value : Option Bytes}
    {next : Stage} (history : History before tree)
    (plain : Plain (before ++ .changeProp dirfile baton name value :: rest))
    (followed : tree.follow (.changeProp dirfile baton name value) = some next) :
    tree.heard (.changeProp dirfile baton name value) = [.changeProp dirfile baton name value] := by
  have noEmpty := sent_of_noEmpty (plain.noEmpty _ (List.mem_append_right _ List.mem_cons_self))
  cases dirfile with
  | file => rw [Editing.heard, noEmpty]
  | dir =>
      have noSubdir : tree.dir.subdirs = false := by
        by_contra marked
        rw [Bool.not_eq_false, history.marked] at marked
        obtain ⟨earlier, member, below⟩ := marked
        rw [← changeDirProp_baton followed] at below
        exact plain.early _ _ _ _ _ rfl earlier member below
      rw [Editing.heard, noEmpty, noSubdir]
      rfl

/-- In a plain drive a call that the rules allow is heard as it is. -/
theorem heard_plain {call : Call} {next : Stage} (history : History before tree)
    (plain : Plain (before ++ call :: rest)) (begun : tree.begun = true)
    (followed : tree.follow call = some next) : tree.heard call = [call.kept baseRevision] := by
  cases call with
  | setTargetRevision revision | openRoot revision | closeEdit => cases followed
  | deleteEntry path revision parent =>
      rw [Editing.heard, if_pos begun]
      rfl
  | addOpen addopen dirfile path parent basePath revision =>
      rw [Editing.heard, if_pos begun]
      rfl
  | changeProp dirfile baton name value =>
      exact heard_changeProp history plain followed
  | closeDirectory dir =>
      rw [Editing.heard, if_pos begun]
      rfl
  | applyTextdelta file handled | closeFile file => rfl

theorem kept_closeDirectory {call : Call}
    (closes : call.kept baseRevision = .closeDirectory (some 0)) : call = .closeDirectory (some 0) := by
  cases call with
  | closeDirectory dir => exact closes
  | _ => cases closes

/-- What is heard after the first entry of the root. -/
theorem heardAll_plain (history : History before tree) (plain : Plain (before ++ rest))
    (entered : tree.Entered) (begun : tree.begun = true)
    (followed : follows (.editing tree) rest = some .finished) :
    heardAll (.editing tree) rest ++ [.closeEdit] = replayed (rest.map (Call.kept baseRevision)) := by
  induction rest generalizing tree before with
  | nil => cases followed
  | cons call rest step =>
      obtain ⟨stage, stepped, afterwards⟩ := follows_cons followed
      have heard := heard_plain baseRevision history plain begun stepped
      rw [heardAll, stepped, List.append_assoc, List.map_cons, replayed]
      show tree.heard call ++ _ = _
      rw [heard, List.singleton_append]
      rcases follow_cases stepped with ⟨next, rfl, moves⟩ | ⟨rfl, alone, rfl⟩
      · have notRoot : call.kept baseRevision ≠ .closeDirectory (some 0) := by
          intro closes
          rw [kept_closeDirectory baseRevision closes] at moves
          exact history.leave moves
        obtain ⟨entered, begun⟩ := follow_begun entered (.inl begun) stepped
        rw [if_neg notRoot]
        congr 1
        apply step (history.step moves) _ entered begun afterwards
        rw [List.append_assoc]
        exact plain
      · rw [history.root_of_alone alone]
        congr 1
        exact heardAll_texts baseRevision afterwards

end Heard

section Files

variable {rest : List Call}

/-- Each file that is open, or is opened later, is heard to be closed once. -/
theorem count_heardAll_texts (file : Nat) {waiting done : List Nat} (nodup : waiting.Nodup)
    (followed : follows (.texts waiting done) rest = some .finished) :
    (heardAll (.texts waiting done) rest).count (.closeFile (some file)) =
      if file ∈ waiting then 1 else 0 := by
  induction rest generalizing waiting done with
  | nil => cases followed
  | cons call rest step =>
      obtain ⟨next, stepped, afterwards⟩ := follows_cons followed
      rw [heardAll, stepped, List.count_append]
      rcases follow_late stepped with ⟨late, handled, rfl, member, -, rfl⟩ | ⟨late, rfl, -, rfl⟩ |
        ⟨rfl, rfl, rfl, rfl⟩
      · rw [step (nodup.erase late) afterwards]
        by_cases same : file = late
        · simp [heard, same, member, nodup.not_mem_erase]
        · simp [heard, Ne.symm same, List.mem_erase_of_ne same]
      · rw [step nodup afterwards]
        simp [heard]
      · obtain ⟨rfl, -⟩ := follows_finished afterwards
        simp [heard, heardAll]

theorem countP_texts {waiting done : List Nat}
    (followed : follows (.texts waiting done) rest = some .finished) :
    rest.countP Call.OpensFile = 0 := by
  induction rest generalizing waiting done with
  | nil => rfl
  | cons call rest step =>
      obtain ⟨next, stepped, afterwards⟩ := follows_cons followed
      rcases follow_late stepped with ⟨late, handled, rfl, -, -, rfl⟩ | ⟨late, rfl, -, rfl⟩ |
        ⟨rfl, rfl, rfl, rfl⟩
      · exact step afterwards
      · exact step afterwards
      · obtain ⟨rfl, -⟩ := follows_finished afterwards
        rfl

/-- Only the end of a file is heard as such. -/
theorem count_heard {tree next : Editing} {call : Call} (file : Nat) (moves : Moves tree next call) :
    (tree.heard call).count (.closeFile (some file)) =
      if call = .closeFile (some file) then 1 else 0 := by
  cases moves with
  | deletes | entersDir | entersFile =>
      rw [Editing.heard]
      split <;> simp [Call.named, Call.bare]
  | changes dirfile =>
      cases dirfile with
      | dir | file => simp [Editing.heard]
  | leavesDir =>
      rw [Editing.heard]
      split <;> simp
  | texts => simp [Editing.heard]
  | leavesFile other => simp [Editing.heard, List.count_singleton]

theorem count_heardAll_editing (file : Nat) {tree : Editing}
    (nodup : tree.pending.Nodup) (older : ∀ file ∈ tree.pending, file < tree.nextFile)
    (followed : follows (.editing tree) rest = some .finished) :
    (heardAll (.editing tree) rest).count (.closeFile (some file)) =
      if file ∈ tree.pending ∨
        tree.nextFile ≤ file ∧ file < tree.nextFile + rest.countP Call.OpensFile then 1 else 0 := by
  induction rest generalizing tree with
  | nil => cases followed
  | cons call rest step =>
      obtain ⟨next, stepped, afterwards⟩ := follows_cons followed
      rw [heardAll, stepped, List.count_append]
      show (tree.heard call).count _ + _ = _
      rcases follow_cases stepped with ⟨next, rfl, moves⟩ | ⟨rfl, alone, rfl⟩
      · rw [count_heard file moves]
        cases moves with
        | deletes _ _ _ _ _ files nextFile | changes _ _ _ _ _ _ files nextFile
        | texts _ _ _ _ files nextFile | entersDir _ _ _ _ _ _ files nextFile
        | leavesDir _ _ files nextFile =>
            rw [step (files ▸ nodup) (files ▸ nextFile ▸ older) afterwards, files, nextFile]
            simp [Call.OpensFile]
        | entersFile _ _ _ _ _ _ files nextFile =>
            have unused : tree.nextFile ∉ tree.pending := fun member => lt_irrefl _ (older _ member)
            rw [step (files ▸ List.nodup_cons.mpr ⟨unused, nodup⟩) ?_ afterwards, files, nextFile]
            · simp only [reduceCtorEq, if_false, List.mem_cons, List.countP_cons, Call.OpensFile,
                if_true, zero_add]
              apply if_congr _ rfl rfl
              by_cases isOpen : file ∈ tree.pending
              · simp [isOpen]
              · simp only [isOpen, or_false, false_or]
                omega
            · rw [files, nextFile]
              intro other member
              rcases List.mem_cons.mp member with rfl | before
              · exact Nat.lt_succ_self _
              · exact Nat.lt_succ_of_lt (older other before)
        | leavesFile closed _ _ files nextFile =>
            rw [files, List.nodup_cons] at nodup
            rw [files] at older
            have inside := older closed List.mem_cons_self
            rw [step nodup.2 (nextFile ▸ fun other member => older other (.tail _ member)) afterwards,
              nextFile, files]
            simp only [Call.closeFile.injEq, Option.some.injEq, List.mem_cons, List.countP_cons,
              Call.OpensFile]
            by_cases same : closed = file
            · rw [← same]
              simp [nodup.1]
              omega
            · simp [same, Ne.symm same]
      · rw [count_heardAll_texts file nodup afterwards]
        have closes : (tree.heard (.closeDirectory (some tree.dir.baton))).count
            (.closeFile (some file)) = 0 := by
          rw [Editing.heard]
          split <;> simp
        have nothing : ¬(tree.nextFile ≤ file ∧ file < tree.nextFile + 0) := by omega
        rw [closes, zero_add, List.countP_cons_of_neg (by simp [Call.OpensFile]),
          countP_texts afterwards]
        simp only [nothing, or_false]

end Files

section Root

variable {rest : List Call}

theorem root_history (before : List Call) (none : ∀ call ∈ before, ∀ dir, ¬call.OpensBelow dir) :
    History before .root := by
  refine ⟨List.nodup_singleton _, ?_, ?_, ?_, false, rfl⟩
  · intro dir member
    rw [List.mem_singleton.mp member]
    exact Nat.one_pos
  · intro dir member
    rw [List.mem_singleton.mp member]
    constructor
    · intro marked
      cases marked
    · intro found
      obtain ⟨call, member, below⟩ := found
      exact absurd below (none call member _)
  · intro call member parent below
    exact absurd below (none call member _)

/-- The first call in the root names an entry, or nothing is named at all. -/
theorem root_first {call : Call} {stage : Stage} (noRoot : ¬call.ChangesRoot)
    (stepped : Editing.root.follow call = some stage)
    (touches : ∃ other ∈ call :: rest, other.TouchesRoot)
    (afterwards : follows stage rest = some .finished) :
    ∃ next, stage = .editing next ∧ Moves .root next call ∧ call.Names := by
  rcases follow_cases stepped with ⟨next, rfl, moves⟩ | ⟨rfl, alone, rfl⟩
  · refine ⟨next, rfl, moves, ?_⟩
    cases moves with
    | deletes | entersDir | entersFile => trivial
    | changes dirfile baton name value =>
        cases dirfile with
        | file => cases stepped
        | dir => exact absurd (changeDirProp_baton stepped) noRoot
    | texts => cases stepped
    | leavesDir dirs =>
        rw [dirs_eq next] at dirs
        cases dirs
    | leavesFile file _ _ files => cases files
  · obtain ⟨other, member, touched⟩ := touches
    rcases List.mem_cons.mp member with rfl | later
    · cases touched
    · cases rest with
      | nil => cases later
      | cons last rest =>
          obtain ⟨next, lastStep, afterwards⟩ := follows_cons afterwards
          rcases follow_late lastStep with ⟨file, _, -, member, -⟩ | ⟨file, -, member, -⟩ |
            ⟨rfl, -, -, rfl⟩
          · cases member
          · cases member
          · obtain ⟨rfl, -⟩ := follows_finished afterwards
            rw [List.mem_singleton.mp later] at touched
            cases touched

/-- The root is heard to be opened before its first entry. -/
theorem heardAll_root (baseRevision : Revision) {opening : List Call}
    (none : ∀ call ∈ opening, ∀ dir, ¬call.OpensBelow dir) (plain : Plain (opening ++ rest))
    (touches : ∃ call ∈ rest, call.TouchesRoot)
    (followed : follows (.editing .root) rest = some .finished) :
    heardAll (.editing .root) rest ++ [.closeEdit] =
      .openRoot .none :: replayed (rest.map (Call.kept baseRevision)) := by
  cases rest with
  | nil => cases followed
  | cons call rest =>
      obtain ⟨stage, stepped, afterwards⟩ := follows_cons followed
      have noRoot := plain.noRoot call (List.mem_append_right _ List.mem_cons_self)
      obtain ⟨next, rfl, moves, names⟩ := root_first noRoot stepped touches afterwards
      have history := (root_history opening none).step moves
      obtain ⟨entered, begun⟩ := follow_begun (fun _ member => by cases member) (.inr names) stepped
      have first : heard (.editing .root) call = [.openRoot .none, call.kept baseRevision] := by
        cases call with
        | deleteEntry | addOpen => rfl
        | _ => cases names
      have notRoot : call.kept baseRevision ≠ .closeDirectory (some 0) := by
        intro closes
        rw [kept_closeDirectory baseRevision closes] at names
        cases names
      rw [heardAll, stepped, first, List.map_cons, replayed, if_neg notRoot]
      have later := heardAll_plain baseRevision history (by rwa [List.append_assoc]) entered begun
        afterwards
      rw [← later]
      rfl

end Root

theorem bare_closeFile (call : Call) (file : Nat) :
    call.bare = .closeFile (some file) ↔ call = .closeFile (some file) := by
  cases call with
  | _ => simp [Call.bare]

theorem count_map_bare (calls : List Call) (file : Nat) :
    (calls.map Call.bare).count (.closeFile (some file)) = calls.count (.closeFile (some file)) := by
  rw [List.count, List.countP_map]
  apply List.countP_congr
  intro call member
  simp [bare_closeFile]

/-- The calls come back in their order, except that a file whose text came late is closed right
after its text. -/
theorem xmlAutoParse_writeCalls (basePath : Bytes) (baseRevision : Revision) {drive : List Call}
    (obeys : Obeys drive) (targets : ∃ revision, Call.setTargetRevision (some revision) ∈ drive)
    (touches : ∃ call ∈ drive, call.TouchesRoot) (plain : Plain drive) :
    ∃ events calls, writeCalls getXmlEditor drive = some events ∧
      xmlAutoParse basePath baseRevision events = .ok calls ∧
      calls.map Call.bare = replayed (drive.map (Call.kept baseRevision)) ∧
      ∀ file < drive.countP Call.OpensFile, calls.count (.closeFile (some file)) = 1 := by
  obtain ⟨target, revision, rest, followed, opens⟩ := obeys.opening
  obtain ⟨targetRevision, targeted⟩ := targets
  have noTarget := noTarget_editing followed (some targetRevision)
  have opening : drive = .setTargetRevision (some targetRevision) :: .openRoot revision :: rest := by
    rcases opens with ⟨rfl, -⟩ | rfl
    · simp [noTarget] at targeted
    · simp only [List.mem_cons, Call.setTargetRevision.injEq, reduceCtorEq, noTarget, or_false]
        at targeted
      rw [targeted]
  clear opens targeted
  subst opening
  obtain ⟨known, isKnown⟩ : ∃ known, baseRevision.or (some targetRevision) = some known := by
    cases baseRevision with
    | none => exact ⟨_, rfl⟩
    | some given => exact ⟨_, rfl⟩
  have inRest : ∀ call ∈ rest,
      call ∈ .setTargetRevision (some targetRevision) :: .openRoot revision :: rest :=
    fun call member => .tail _ (.tail _ member)
  have touchesRest : ∃ call ∈ rest, call.TouchesRoot := by
    obtain ⟨call, member, touched⟩ := touches
    simp only [List.mem_cons] at member
    rcases member with rfl | rfl | later
    · cases touched
    · cases touched
    · exact ⟨call, later, touched⟩
  obtain ⟨ends, events, final, writes, parses, -, calls⟩ :=
    drive_replay basePath revision isKnown
      (fun call member => plain.noCopy call (inRest call member))
      (fun call member => plain.noRoot call (inRest call member)) followed
  have replays : (final.call .closeEdit).calls.map Call.bare =
      .setTargetRevision (some known) :: (heardAll (.editing .root) rest ++ [.closeEdit]) := by
    rw [Digger.call, List.map_append, calls]
    rfl
  have written : writeCalls getXmlEditor
      (.setTargetRevision (some targetRevision) :: .openRoot revision :: rest) = some events := by
    have target : writeCall getXmlEditor (.setTargetRevision (some targetRevision)) =
        some ({ getXmlEditor with targetRevision := some targetRevision }, []) := rfl
    have all := writes []
    rw [List.append_nil] at all
    rw [writeCalls_cons target, all]
    simp [writeCalls]
  refine ⟨events, (final.call .closeEdit).calls, written, ?_, ?_, ?_⟩
  · rw [xmlAutoParse, parses]
    rfl
  · have noBelow : ∀ call ∈ [.setTargetRevision (some targetRevision), .openRoot revision],
        ∀ dir, ¬Call.OpensBelow dir call := by
      simp [Call.OpensBelow]
    rw [replays, heardAll_root baseRevision noBelow plain touchesRest followed]
    simp [Call.kept, Call.overridden, isKnown, replayed, Call.named, Call.bare]
  · intro file inside
    have inRest : 0 ≤ file ∧ file < 0 + rest.countP Call.OpensFile := by
      simpa [Call.OpensFile] using inside
    have nodup : Editing.root.pending.Nodup := List.nodup_nil
    have once := count_heardAll_editing file nodup (fun _ member => by cases member) followed
    rw [if_pos (.inr inRest)] at once
    rw [← count_map_bare, replays, List.count_cons_of_ne (by simp), List.count_append, once]
    simp

/-- A file with a property and no text yet in a new directory, beside a file that is replaced at
once. -/
def mixedDrive : List Call :=
  [.setTargetRevision (some 7), .openRoot (some 3), .addDirectory [100] (some 0) none none,
    .changeDirProp (some 1) [112] (some [118]), .openFile [100, 47, 102] (some 1) (some 3),
    .changeFileProp (some 0) [113] none, .addFile [100, 47, 103] (some 1) none none,
    .applyTextdelta (some 1) [none], .closeFile (some 1), .closeDirectory (some 1),
    .deleteEntry [120] (some 3) (some 0), .closeDirectory (some 0), .applyTextdelta (some 0) [none],
    .closeFile (some 0), .closeEdit]

theorem mixedDrive_plain : Plain mixedDrive := by
  refine ⟨?_, ?_, ?_, ?_⟩
  · simp [mixedDrive, Call.Copies, Call.addDirectory, Call.changeDirProp, Call.openFile,
      Call.changeFileProp, Call.addFile]
  · simp [mixedDrive, Call.ChangesRoot, Call.addDirectory, Call.changeDirProp, Call.openFile,
      Call.changeFileProp, Call.addFile]
  · intro before after dir name value split call earlier below
    have member : Call.changeProp .dir dir name value ∈ mixedDrive := by
      rw [split]
      exact List.mem_append_right _ List.mem_cons_self
    have inDrive : call ∈ mixedDrive := by
      rw [split]
      exact List.mem_append_left _ earlier
    simp only [mixedDrive, Call.addDirectory, Call.changeDirProp, Call.openFile, Call.changeFileProp,
      Call.addFile, List.mem_cons, List.not_mem_nil, or_false, reduceCtorEq, false_or,
      Call.changeProp.injEq, true_and, false_and] at member
    have leaf : ∀ call ∈ mixedDrive, ¬call.OpensBelow (some 1) := by
      simp [mixedDrive, Call.OpensBelow, Call.addDirectory, Call.changeDirProp, Call.openFile,
        Call.changeFileProp, Call.addFile]
    rw [member.1] at below
    exact leaf call inDrive below
  · simp [mixedDrive, Call.SetsEmpty, Call.addDirectory, Call.changeDirProp, Call.openFile,
      Call.changeFileProp, Call.addFile]

theorem xmlAutoParse_writeCalls_mixed : ∃ events calls,
    writeCalls getXmlEditor mixedDrive = some events ∧ xmlAutoParse [] none events = .ok calls ∧
      calls.map Call.bare = replayed (mixedDrive.map (Call.kept none)) ∧
      ∀ file < mixedDrive.countP Call.OpensFile, calls.count (.closeFile (some file)) = 1 :=
  xmlAutoParse_writeCalls [] none (by decide) ⟨7, by decide⟩ ⟨_, .tail _ (.tail _ (.head _)), rfl⟩
    mixedDrive_plain

/-- Two files are closed after both have their texts. -/
def lateDrive : List Call :=
  [.setTargetRevision (some 1), .openRoot none, .addFile [97] (some 0) none none,
    .addFile [98] (some 0) none none, .closeDirectory (some 0), .applyTextdelta (some 0) [none],
    .applyTextdelta (some 1) [none], .closeFile (some 0), .closeFile (some 1), .closeEdit]

theorem late_files_are_closed_at_once :
    Obeys lateDrive ∧ .setTargetRevision (some 1) ∈ lateDrive ∧
      (∃ call ∈ lateDrive, call.TouchesRoot) ∧ Plain lateDrive ∧
      ∃ events calls, writeCalls getXmlEditor lateDrive = some events ∧
        xmlAutoParse [] none events = .ok calls ∧
        calls.map Call.bare ≠ lateDrive.map (Call.kept none) := by
  refine ⟨by decide, by decide, ⟨_, .tail _ (.tail _ (.head _)), rfl⟩, ⟨?_, ?_, ?_, ?_⟩, _, _, rfl,
    rfl, by decide⟩
  · simp [lateDrive, Call.Copies, Call.addFile]
  · simp [lateDrive, Call.ChangesRoot, Call.addFile]
  · intro before after dir name value split
    have member : Call.changeProp .dir dir name value ∈ lateDrive := by
      rw [split]
      exact List.mem_append_right _ List.mem_cons_self
    simp [lateDrive, Call.addFile] at member
  · simp [lateDrive, Call.SetsEmpty, Call.addFile]

end Subversion.Delta.Xml
