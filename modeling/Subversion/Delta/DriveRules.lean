/-
This file states the ordering rules for the calls of an editor drive.
-/

import Subversion.Delta.XmlOutput

namespace Subversion.Delta.Xml

open Subr

/-- An open directory remembers the entries that were named, whether a subdirectory was opened, and
whether properties were changed after that. -/
structure OpenDir where
  baton : Nat
  names : List Bytes
  subdirs : Bool
  late : Bool
  deriving DecidableEq, Repr

/-- The innermost directory and the ones around it. The current file is the one that no other entry
came after, with a mark when it has its text. -/
structure Editing where
  dir : OpenDir
  outer : List OpenDir
  current : Option (Nat × Bool)
  deferred : List Nat
  nextDir : Nat
  nextFile : Nat
  deriving DecidableEq, Repr

/-- The files without a text, and the ones that are to be closed, are left when the root is closed. -/
inductive Stage where
  | started (targetRevision : Option Revision)
  | editing (tree : Editing)
  | texts (waiting sent : List Nat)
  | finished
  deriving DecidableEq, Repr

def OpenDir.opened (baton : Nat) : OpenDir := ⟨baton, [], false, false⟩

/-- Nothing was done in the root. -/
def Editing.root : Editing := ⟨.opened 0, [], none, [], 1, 0⟩

/-- The NULL window comes at the end and only there. -/
def WholeStream (handled : List (Option TxdeltaWindow)) : Prop :=
  handled.getLast? = some none ∧ none ∉ handled.dropLast

instance (handled : List (Option TxdeltaWindow)) : Decidable (WholeStream handled) :=
  inferInstanceAs (Decidable (_ ∧ _))

namespace Editing

variable (tree : Editing)

/-- A file that is left without its text gets it at the end. -/
def leaveFile : Option Editing :=
  match tree.current with
  | none => some tree
  | some (file, false) => some { tree with current := none, deferred := file :: tree.deferred }
  | some (_, true) => none

/-- An entry of the innermost directory is named for the first time. -/
def touch (path : Bytes) (parent : Baton) : Option Editing :=
  if parent = some tree.dir.baton ∧ basename path ≠ [] ∧ basename path ∉ tree.dir.names then
    some { tree with dir := { tree.dir with names := basename path :: tree.dir.names } }
  else none

def openFile : Editing :=
  { tree with current := some (tree.nextFile, false), nextFile := tree.nextFile + 1 }

def openDir : Editing :=
  { tree with
    dir := .opened tree.nextDir
    outer := { tree.dir with subdirs := true } :: tree.outer
    nextDir := tree.nextDir + 1 }

def follow : Call → Option Stage
  | .deleteEntry path _ parent => do some (.editing (← (← tree.leaveFile).touch path parent))
  | .addOpen _ .file path parent _ _ => do
      some (.editing (← (← tree.leaveFile).touch path parent).openFile)
  | .addOpen _ .dir path parent _ _ => do
      let tree ← (← tree.leaveFile).touch path parent
      if tree.dir.late then none else some (.editing tree.openDir)
  | .changeProp .dir dir _ _ => do
      let tree ← tree.leaveFile
      if dir = some tree.dir.baton then
        some (.editing { tree with dir := { tree.dir with late := tree.dir.subdirs } })
      else none
  | .changeProp .file file _ _ =>
      if file ≠ none ∧ file = tree.current.map Prod.fst then some (.editing tree) else none
  | .closeDirectory dir => do
      let tree ← tree.leaveFile
      if dir = some tree.dir.baton then
        match tree.outer with
        | [] => some (.texts tree.deferred [])
        | parent :: outer => some (.editing { tree with dir := parent, outer := outer })
      else none
  | .applyTextdelta file handled =>
      match tree.current with
      | some (current, false) =>
          if file = some current ∧ WholeStream handled then
            some (.editing { tree with current := some (current, true) })
          else none
      | _ => none
  | .closeFile file =>
      if file ≠ none ∧ file = tree.current.map Prod.fst then
        some (.editing { tree with current := none })
      else none
  | _ => none

end Editing

/-- The stage after one call, if the rules allow it. The tree is traversed depth-first. -/
def follow : Stage → Call → Option Stage
  | .started none, .setTargetRevision revision => some (.started (some revision))
  | .started _, .openRoot _ => some (.editing .root)
  | .editing tree, call => tree.follow call
  | .texts waiting sent, .applyTextdelta (some file) handled =>
      if file ∈ waiting ∧ WholeStream handled then some (.texts (waiting.erase file) (file :: sent))
      else none
  | .texts waiting sent, .closeFile (some file) =>
      if file ∈ sent then some (.texts waiting (sent.erase file)) else none
  | .texts [] [], .closeEdit => some .finished
  | _, _ => none

def follows (stage : Stage) (drive : List Call) : Option Stage := drive.foldlM follow stage

/-- A drive obeys the rules from the first call to the last. -/
def Obeys (drive : List Call) : Prop := follows (.started none) drive = some .finished

instance (drive : List Call) : Decidable (Obeys drive) := inferInstanceAs (Decidable (_ = _))

theorem follows_cons {stage last : Stage} {call : Call} {drive : List Call}
    (followed : follows stage (call :: drive) = some last) :
    ∃ next, follow stage call = some next ∧ follows next drive = some last := by
  rw [follows, List.foldlM_cons, Option.bind_eq_bind, Option.bind_eq_some_iff] at followed
  exact followed

theorem follows_append {stage last : Stage} {before after : List Call}
    (followed : follows stage (before ++ after) = some last) :
    ∃ middle, follows stage before = some middle ∧ follows middle after = some last := by
  rw [follows, List.foldlM_append, Option.bind_eq_bind, Option.bind_eq_some_iff] at followed
  exact followed

/-- After the root is closed the texts come, and at last the end of the edit. -/
theorem follow_late {waiting done : List Nat} {call : Call} {next : Stage}
    (followed : follow (.texts waiting done) call = some next) :
    (∃ file handled, call = .applyTextdelta (some file) handled ∧ file ∈ waiting ∧
      WholeStream handled ∧ next = .texts (waiting.erase file) (file :: done)) ∨
    (∃ file, call = .closeFile (some file) ∧ file ∈ done ∧ next = .texts waiting (done.erase file)) ∨
    (call = .closeEdit ∧ waiting = [] ∧ done = [] ∧ next = .finished) := by
  cases call with
  | applyTextdelta file handled =>
      cases file with
      | none => cases followed
      | some file =>
          simp only [follow] at followed
          split at followed
          · rename_i allowed
            exact .inl ⟨file, handled, rfl, allowed.1, allowed.2, (Option.some.inj followed).symm⟩
          · cases followed
  | closeFile file =>
      cases file with
      | none => cases followed
      | some file =>
          simp only [follow] at followed
          split at followed
          · rename_i member
            exact .inr (.inl ⟨file, rfl, member, (Option.some.inj followed).symm⟩)
          · cases followed
  | closeEdit =>
      cases waiting with
      | nil =>
          cases done with
          | nil => exact .inr (.inr ⟨rfl, rfl, rfl, (Option.some.inj followed).symm⟩)
          | cons => cases followed
      | cons => cases followed
  | _ => cases followed

theorem follows_finished {drive : List Call} {last : Stage}
    (followed : follows .finished drive = some last) : drive = [] ∧ last = .finished := by
  cases drive with
  | nil => exact ⟨rfl, (Option.some.inj followed).symm⟩
  | cons call drive =>
      obtain ⟨next, stepped, -⟩ := follows_cons followed
      cases call <;> cases stepped

/-- The target revision is set before the root is opened. -/
theorem noTarget_texts {waiting done : List Nat} {drive : List Call} {last : Stage}
    (followed : follows (.texts waiting done) drive = some last) (revision : Revision) :
    .setTargetRevision revision ∉ drive := by
  induction drive generalizing waiting done with
  | nil => exact List.not_mem_nil
  | cons call drive step =>
      obtain ⟨next, stepped, afterwards⟩ := follows_cons followed
      rcases follow_late stepped with ⟨late, handled, rfl, -, -, rfl⟩ | ⟨late, rfl, -, rfl⟩ |
        ⟨rfl, rfl, rfl, rfl⟩
      · simpa using step afterwards
      · simpa using step afterwards
      · obtain ⟨rfl, -⟩ := follows_finished afterwards
        simp

section Moves

variable {tree left next : Editing}

/-- The open directories, each with the mark of a subdirectory. -/
def Editing.dirs (tree : Editing) : List (Nat × Bool) :=
  (tree.dir :: tree.outer).map fun dir => (dir.baton, dir.subdirs)

/-- The files that are not closed. -/
def Editing.pending (tree : Editing) : List Nat :=
  (tree.current.map Prod.fst).toList ++ tree.deferred

/-- What a call does to the directories and the files that are open. -/
inductive Moves (tree next : Editing) : Call → Prop
  | deletes (path : Bytes) (revision : Revision) (parent : Baton) (dirs : next.dirs = tree.dirs)
      (nextDir : next.nextDir = tree.nextDir) (files : next.pending = tree.pending)
      (nextFile : next.nextFile = tree.nextFile) : Moves tree next (.deleteEntry path revision parent)
  | changes (dirfile : DirFile) (baton : Nat) (name : Bytes) (value : Option Bytes)
      (dirs : next.dirs = tree.dirs)
      (nextDir : next.nextDir = tree.nextDir) (files : next.pending = tree.pending)
      (nextFile : next.nextFile = tree.nextFile) :
      Moves tree next (.changeProp dirfile (some baton) name value)
  | texts (file : Nat) (handled : List (Option TxdeltaWindow)) (dirs : next.dirs = tree.dirs)
      (nextDir : next.nextDir = tree.nextDir) (files : next.pending = tree.pending)
      (nextFile : next.nextFile = tree.nextFile) : Moves tree next (.applyTextdelta (some file) handled)
  | entersDir (addopen : AddOpen) (path : Bytes) (basePath : Option Bytes) (revision : Revision)
      (dirs : next.dirs = (tree.nextDir, false) :: (tree.dir.baton, true) :: tree.dirs.tail)
      (nextDir : next.nextDir = tree.nextDir + 1) (files : next.pending = tree.pending)
      (nextFile : next.nextFile = tree.nextFile) :
      Moves tree next (.addOpen addopen .dir path (some tree.dir.baton) basePath revision)
  | entersFile (addopen : AddOpen) (path : Bytes) (basePath : Option Bytes) (revision : Revision)
      (dirs : next.dirs = tree.dirs) (nextDir : next.nextDir = tree.nextDir)
      (files : next.pending = tree.nextFile :: tree.pending)
      (nextFile : next.nextFile = tree.nextFile + 1) :
      Moves tree next (.addOpen addopen .file path (some tree.dir.baton) basePath revision)
  | leavesDir (dirs : tree.dirs = (tree.dir.baton, tree.dir.subdirs) :: next.dirs)
      (nextDir : next.nextDir = tree.nextDir) (files : next.pending = tree.pending)
      (nextFile : next.nextFile = tree.nextFile) :
      Moves tree next (.closeDirectory (some tree.dir.baton))
  | leavesFile (file : Nat) (dirs : next.dirs = tree.dirs) (nextDir : next.nextDir = tree.nextDir)
      (files : tree.pending = file :: next.pending) (nextFile : next.nextFile = tree.nextFile) :
      Moves tree next (.closeFile (some file))

theorem leaveFile_keeps (leaves : tree.leaveFile = some left) :
    left.dir = tree.dir ∧ left.outer = tree.outer ∧ left.nextDir = tree.nextDir ∧
      left.nextFile = tree.nextFile ∧ left.current = none ∧ left.deferred = tree.pending := by
  rw [Editing.leaveFile] at leaves
  split at leaves
  · rename_i noFile
    rw [← Option.some.inj leaves]
    simp [Editing.pending, noFile]
  · rename_i current
    rw [← Option.some.inj leaves]
    simp [Editing.pending, current]
  · cases leaves

theorem touch_some {path : Bytes} {parent : Baton} {touched : Editing}
    (touches : tree.touch path parent = some touched) :
    parent = some tree.dir.baton ∧ basename path ≠ [] ∧ basename path ∉ tree.dir.names ∧
      touched = { tree with dir := { tree.dir with names := basename path :: tree.dir.names } } := by
  rw [Editing.touch] at touches
  split at touches
  · rename_i allowed
    exact ⟨allowed.1, allowed.2.1, allowed.2.2, (Option.some.inj touches).symm⟩
  · cases touches

/-- A call is one of the moves, or it closes the root. -/
theorem follow_cases {call : Call} {stage : Stage} (followed : tree.follow call = some stage) :
    (∃ next, stage = .editing next ∧ Moves tree next call) ∨
    (call = .closeDirectory (some tree.dir.baton) ∧ tree.outer = [] ∧
      stage = .texts tree.pending []) := by
  cases call with
  | setTargetRevision revision | openRoot revision | closeEdit => cases followed
  | deleteEntry path revision parent =>
      simp only [Editing.follow, Option.bind_eq_bind, Option.bind_eq_some_iff] at followed
      obtain ⟨left, leaves, touched, touches, same⟩ := followed
      obtain ⟨sameDir, sameOuter, nextDir, nextFile, noFile, deferred⟩ := leaveFile_keeps leaves
      obtain ⟨-, -, -, rfl⟩ := touch_some touches
      obtain rfl := Option.some.inj same
      refine .inl ⟨_, rfl, ?_⟩
      apply Moves.deletes
      all_goals simp [Editing.dirs, Editing.pending, sameDir, sameOuter, nextDir, nextFile, noFile,
        deferred]
  | addOpen addopen dirfile path parent basePath revision =>
      cases dirfile with
      | file =>
          simp only [Editing.follow, Option.bind_eq_bind, Option.bind_eq_some_iff] at followed
          obtain ⟨left, leaves, touched, touches, same⟩ := followed
          obtain ⟨sameDir, sameOuter, nextDir, nextFile, noFile, deferred⟩ := leaveFile_keeps leaves
          obtain ⟨isDir, -, -, rfl⟩ := touch_some touches
          obtain rfl := Option.some.inj same
          rw [isDir, sameDir]
          refine .inl ⟨_, rfl, ?_⟩
          apply Moves.entersFile
          all_goals simp [Editing.openFile, Editing.dirs, Editing.pending, sameOuter, nextDir,
            nextFile, deferred]
      | dir =>
          simp only [Editing.follow, Option.bind_eq_bind, Option.bind_eq_some_iff] at followed
          obtain ⟨left, leaves, touched, touches, same⟩ := followed
          obtain ⟨sameDir, sameOuter, nextDir, nextFile, noFile, deferred⟩ := leaveFile_keeps leaves
          obtain ⟨isDir, -, -, rfl⟩ := touch_some touches
          split at same
          · cases same
          · obtain rfl := Option.some.inj same
            rw [isDir, sameDir]
            refine .inl ⟨_, rfl, ?_⟩
            apply Moves.entersDir
            all_goals simp [Editing.openDir, OpenDir.opened, Editing.dirs, Editing.pending, sameOuter,
              nextDir, nextFile, noFile, deferred]
  | changeProp dirfile baton name value =>
      cases dirfile with
      | dir =>
          simp only [Editing.follow, Option.bind_eq_bind, Option.bind_eq_some_iff] at followed
          obtain ⟨left, leaves, same⟩ := followed
          obtain ⟨sameDir, sameOuter, nextDir, nextFile, noFile, deferred⟩ := leaveFile_keeps leaves
          split at same
          · rename_i isDir
            obtain rfl := Option.some.inj same
            rw [isDir]
            refine .inl ⟨_, rfl, ?_⟩
            apply Moves.changes
            all_goals simp [Editing.dirs, Editing.pending, sameDir, sameOuter, nextDir, nextFile,
              noFile, deferred]
          · cases same
      | file =>
          simp only [Editing.follow] at followed
          split at followed
          · rename_i allowed
            obtain ⟨file, rfl⟩ := Option.ne_none_iff_exists'.mp allowed.1
            obtain rfl := Option.some.inj followed
            exact .inl ⟨_, rfl, .changes .file file name value rfl rfl rfl rfl⟩
          · cases followed
  | closeDirectory dir =>
      simp only [Editing.follow, Option.bind_eq_bind, Option.bind_eq_some_iff] at followed
      obtain ⟨left, leaves, same⟩ := followed
      obtain ⟨sameDir, sameOuter, nextDir, nextFile, noFile, deferred⟩ := leaveFile_keeps leaves
      split at same
      · rename_i isDir
        split at same
        · rename_i alone
          obtain rfl := Option.some.inj same
          rw [isDir, sameDir, ← sameOuter, deferred]
          exact .inr ⟨rfl, alone, rfl⟩
        · rename_i around
          obtain rfl := Option.some.inj same
          rw [isDir, sameDir]
          refine .inl ⟨_, rfl, ?_⟩
          apply Moves.leavesDir
          all_goals simp [Editing.dirs, Editing.pending, ← sameOuter, around, nextDir, nextFile,
            noFile, deferred]
      · cases same
  | applyTextdelta file handled =>
      simp only [Editing.follow] at followed
      split at followed
      · rename_i worked current
        split at followed
        · rename_i allowed
          obtain rfl := Option.some.inj followed
          rw [allowed.1]
          refine .inl ⟨_, rfl, ?_⟩
          apply Moves.texts
          all_goals simp [Editing.dirs, Editing.pending, current]
        · cases followed
      · cases followed
  | closeFile file =>
      simp only [Editing.follow] at followed
      split at followed
      · rename_i allowed
        obtain ⟨file, rfl⟩ := Option.ne_none_iff_exists'.mp allowed.1
        obtain rfl := Option.some.inj followed
        refine .inl ⟨_, rfl, ?_⟩
        apply Moves.leavesFile
        all_goals simp [Editing.dirs, Editing.pending, ← allowed.2]
      · cases followed

theorem noTarget_editing {drive : List Call} {last : Stage}
    (followed : follows (.editing tree) drive = some last) (revision : Revision) :
    .setTargetRevision revision ∉ drive := by
  induction drive generalizing tree with
  | nil => exact List.not_mem_nil
  | cons call drive step =>
      obtain ⟨stage, stepped, afterwards⟩ := follows_cons followed
      rcases follow_cases stepped with ⟨next, rfl, moves⟩ | ⟨rfl, -, rfl⟩
      · intro member
        rcases List.mem_cons.mp member with rfl | later
        · cases moves
        · exact step afterwards later
      · simpa using noTarget_texts afterwards revision

end Moves

section Begun

/-- An entry of the root was named. -/
def Editing.begun (tree : Editing) : Bool := tree.outer ≠ [] || tree.dir.names ≠ []

variable {tree next : Editing}

theorem begun_of_names (named : tree.dir.names ≠ []) : tree.begun = true := by
  simp [Editing.begun, named]

theorem begun_of_outer (below : tree.outer ≠ []) : tree.begun = true := by
  simp [Editing.begun, below]

/-- The directories around the innermost one have entries. -/
def Editing.Entered (tree : Editing) : Prop := ∀ dir ∈ tree.outer, dir.names ≠ []

/-- An entry is named. -/
def Call.Names : Call → Prop
  | .deleteEntry _ _ _ => True
  | .addOpen _ _ _ _ _ _ => True
  | _ => False

theorem follow_begun {call : Call} (entered : tree.Entered) (begun : tree.begun = true ∨ call.Names)
    (followed : tree.follow call = some (.editing next)) : next.Entered ∧ next.begun = true := by
  have unchanged : ∀ other : Editing, other.outer = tree.outer →
      other.dir.names = tree.dir.names → ¬call.Names → other.Entered ∧ other.begun = true := by
    intro other sameOuter sameNames noName
    rw [Editing.Entered, Editing.begun, sameOuter, sameNames]
    exact ⟨entered, begun.resolve_right noName⟩
  have touched : ∀ {left other : Editing} {path parent}, tree.leaveFile = some left →
      left.touch path parent = some other → other.outer = tree.outer ∧ other.dir.names ≠ [] := by
    intro left other path parent leaves touches
    obtain ⟨-, -, -, rfl⟩ := touch_some touches
    exact ⟨(leaveFile_keeps leaves).2.1, List.cons_ne_nil _ _⟩
  cases call with
  | setTargetRevision revision | openRoot revision | closeEdit => cases followed
  | deleteEntry path revision parent =>
      simp only [Editing.follow, Option.bind_eq_bind, Option.bind_eq_some_iff] at followed
      obtain ⟨left, leaves, other, touches, same⟩ := followed
      obtain rfl := Stage.editing.inj (Option.some.inj same)
      obtain ⟨sameOuter, named⟩ := touched leaves touches
      exact ⟨fun dir member => entered dir (sameOuter ▸ member), begun_of_names named⟩
  | addOpen addopen dirfile path parent basePath revision =>
      cases dirfile with
      | file =>
          simp only [Editing.follow, Option.bind_eq_bind, Option.bind_eq_some_iff] at followed
          obtain ⟨left, leaves, other, touches, same⟩ := followed
          obtain rfl := Stage.editing.inj (Option.some.inj same)
          obtain ⟨sameOuter, named⟩ := touched leaves touches
          exact ⟨fun dir member => entered dir (sameOuter ▸ member), begun_of_names named⟩
      | dir =>
          simp only [Editing.follow, Option.bind_eq_bind, Option.bind_eq_some_iff] at followed
          obtain ⟨left, leaves, other, touches, same⟩ := followed
          obtain ⟨sameOuter, named⟩ := touched leaves touches
          split at same
          · cases same
          · obtain rfl := Stage.editing.inj (Option.some.inj same)
            refine ⟨?_, begun_of_outer (List.cons_ne_nil _ _)⟩
            intro dir member
            rcases List.mem_cons.mp member with rfl | around
            · exact named
            · exact entered dir (sameOuter ▸ around)
  | changeProp dirfile baton name value =>
      cases dirfile with
      | dir =>
          simp only [Editing.follow, Option.bind_eq_bind, Option.bind_eq_some_iff] at followed
          obtain ⟨left, leaves, same⟩ := followed
          obtain ⟨sameDir, sameOuter, -⟩ := leaveFile_keeps leaves
          split at same
          · obtain rfl := Stage.editing.inj (Option.some.inj same)
            exact unchanged _ sameOuter (show left.dir.names = _ by rw [sameDir]) id
          · cases same
      | file =>
          simp only [Editing.follow] at followed
          split at followed
          · obtain rfl := Stage.editing.inj (Option.some.inj followed)
            exact unchanged _ rfl rfl id
          · cases followed
  | closeDirectory dir =>
      simp only [Editing.follow, Option.bind_eq_bind, Option.bind_eq_some_iff] at followed
      obtain ⟨left, leaves, same⟩ := followed
      obtain ⟨-, sameOuter, -⟩ := leaveFile_keeps leaves
      split at same
      · split at same
        · cases same
        · rename_i around
          rw [around] at sameOuter
          obtain rfl := Stage.editing.inj (Option.some.inj same)
          refine ⟨fun dir member => entered dir ?_, begun_of_names (entered _ ?_)⟩
          · rw [← sameOuter]
            exact .tail _ member
          · rw [← sameOuter]
            exact List.mem_cons_self
      · cases same
  | applyTextdelta file handled =>
      simp only [Editing.follow] at followed
      split at followed
      · split at followed
        · obtain rfl := Stage.editing.inj (Option.some.inj followed)
          exact unchanged _ rfl rfl id
        · cases followed
      · cases followed
  | closeFile file =>
      simp only [Editing.follow] at followed
      split at followed
      · obtain rfl := Stage.editing.inj (Option.some.inj followed)
        exact unchanged _ rfl rfl id
      · cases followed

end Begun

section History

/-- A subdirectory of a directory is opened. -/
def Call.OpensBelow (dir : Baton) : Call → Prop
  | .addOpen _ .dir _ parent _ _ => parent = dir
  | _ => False

/-- The directories are numbered as they were opened, and the marks tell of the calls before. -/
structure History (before : List Call) (tree : Editing) : Prop where
  nodup : (tree.dirs.map Prod.fst).Nodup
  older : ∀ dir ∈ tree.dirs, dir.1 < tree.nextDir
  marks : ∀ dir ∈ tree.dirs, dir.2 = true ↔ ∃ call ∈ before, call.OpensBelow (some dir.1)
  parents : ∀ call ∈ before, ∀ parent, call.OpensBelow (some parent) → parent < tree.nextDir
  root : ∃ mark, tree.dirs.getLast? = some (0, mark)

variable {before : List Call} {tree next : Editing} {call : Call}

theorem dirs_eq (tree : Editing) : tree.dirs = (tree.dir.baton, tree.dir.subdirs) :: tree.dirs.tail :=
  rfl

/-- A call that opens no subdirectory tells nothing new. -/
theorem History.keep (history : History before tree) (dirs : next.dirs <:+ tree.dirs)
    (nextDir : next.nextDir = tree.nextDir) (other : ∀ dir, ¬call.OpensBelow dir) :
    History (before ++ [call]) next := by
  obtain ⟨nodup, older, marks, parents, mark, root⟩ := history
  refine ⟨nodup.sublist (dirs.sublist.map _), ?_, ?_, ?_, mark, ?_⟩
  · intro dir member
    rw [nextDir]
    exact older dir (dirs.subset member)
  · intro dir member
    rw [marks dir (dirs.subset member)]
    simp [other]
  · intro earlier member parent opens
    rw [nextDir]
    rcases List.mem_append.mp member with old | new
    · exact parents earlier old parent opens
    · rw [List.mem_singleton.mp new] at opens
      exact absurd opens (other _)
  · obtain ⟨closed, split⟩ := dirs
    rw [← root, ← split, dirs_eq next, List.getLast?_append_cons]

theorem History.enter (history : History before tree)
    (dirs : next.dirs = (tree.nextDir, false) :: (tree.dir.baton, true) :: tree.dirs.tail)
    (nextDir : next.nextDir = tree.nextDir + 1)
    (opens : ∀ dir, call.OpensBelow dir ↔ dir = some tree.dir.baton) :
    History (before ++ [call]) next := by
  obtain ⟨nodup, older, marks, parents, mark, root⟩ := history
  rw [dirs_eq tree] at nodup older marks root
  have inside : tree.dir.baton < tree.nextDir := older _ List.mem_cons_self
  have outside : ∀ dir ∈ tree.dirs.tail, dir.1 < tree.nextDir :=
    fun dir member => older dir (.tail _ member)
  rw [List.map_cons, List.nodup_cons] at nodup
  refine ⟨?_, ?_, ?_, ?_, ?_⟩
  · rw [dirs, List.map_cons, List.map_cons, List.nodup_cons, List.nodup_cons]
    refine ⟨?_, nodup⟩
    rw [List.mem_cons, not_or]
    refine ⟨by show tree.nextDir ≠ _; omega, ?_⟩
    intro member
    obtain ⟨dir, inTail, same⟩ := List.mem_map.mp member
    have := outside dir inTail
    omega
  · rw [dirs, nextDir]
    intro dir member
    rcases List.mem_cons.mp member with rfl | member
    · exact Nat.lt_succ_self _
    · rcases List.mem_cons.mp member with rfl | member
      · exact Nat.lt_succ_of_lt inside
      · exact Nat.lt_succ_of_lt (outside dir member)
  · rw [dirs]
    intro dir member
    rcases List.mem_cons.mp member with rfl | member
    · constructor
      · intro marked
        cases marked
      · intro found
        obtain ⟨earlier, member, below⟩ := found
        rcases List.mem_append.mp member with old | new
        · exact absurd (parents earlier old _ below) (lt_irrefl _)
        · rw [List.mem_singleton.mp new, opens] at below
          have same := Option.some.inj below
          omega
    · rcases List.mem_cons.mp member with rfl | member
      · refine ⟨fun _ => ⟨call, by simp, (opens _).mpr rfl⟩, fun _ => rfl⟩
      · have apart : dir.1 ≠ tree.dir.baton := by
          intro same
          apply nodup.1
          rw [← same]
          exact List.mem_map.mpr ⟨dir, member, rfl⟩
        rw [marks dir (.tail _ member)]
        simp [opens, apart]
  · intro earlier member parent below
    rw [nextDir]
    rcases List.mem_append.mp member with old | new
    · exact Nat.lt_succ_of_lt (parents earlier old parent below)
    · rw [List.mem_singleton.mp new, opens] at below
      rw [Option.some.inj below]
      exact Nat.lt_succ_of_lt inside
  · rw [dirs]
    cases tail : tree.dirs.tail with
    | nil =>
        rw [tail] at root
        refine ⟨true, ?_⟩
        simp at root
        simp [root.1]
    | cons dir rest =>
        rw [tail] at root
        refine ⟨mark, ?_⟩
        rw [← root]
        simp

theorem History.step (history : History before tree) (moves : Moves tree next call) :
    History (before ++ [call]) next := by
  cases moves with
  | deletes _ _ _ dirs nextDir | changes _ _ _ _ dirs nextDir | texts _ _ dirs nextDir
  | entersFile _ _ _ _ dirs nextDir | leavesFile _ dirs nextDir =>
      exact history.keep (dirs ▸ List.suffix_refl _) nextDir fun _ opens => opens
  | leavesDir dirs nextDir =>
      exact history.keep (dirs ▸ List.suffix_cons _ _) nextDir fun _ opens => opens
  | entersDir addopen path basePath revision dirs nextDir =>
      exact history.enter dirs nextDir fun dir => eq_comm

theorem History.root_of_alone (history : History before tree) (alone : tree.outer = []) :
    tree.dir.baton = 0 := by
  obtain ⟨mark, root⟩ := history.root
  rw [Editing.dirs, alone] at root
  simp at root
  exact root.1

/-- No other directory has the number of the root. -/
theorem History.alone_of_root (history : History before tree) (isRoot : tree.dir.baton = 0) :
    tree.outer = [] := by
  obtain ⟨mark, root⟩ := history.root
  have nodup := history.nodup
  cases outer : tree.outer with
  | nil => rfl
  | cons parent rest =>
      rw [Editing.dirs, outer, List.map_cons, List.map_cons, List.getLast?_cons_cons] at root
      rw [Editing.dirs, outer, List.map_cons, List.map_cons, List.nodup_cons, isRoot] at nodup
      exact absurd (List.mem_map.mpr ⟨_, List.mem_of_getLast? root, rfl⟩) nodup.1

/-- The root is not left for another directory. -/
theorem History.leave (history : History before tree)
    (moves : Moves tree next (.closeDirectory (some 0))) : False := by
  generalize leaves : Call.closeDirectory (some 0) = call at moves
  cases moves with
  | leavesDir dirs =>
      have isRoot : tree.dir.baton = 0 := (Option.some.inj (Call.closeDirectory.inj leaves)).symm
      rw [Editing.dirs, history.alone_of_root isRoot, dirs_eq next] at dirs
      cases dirs
  | _ => cases leaves

end History

section Props

variable {tree : Editing} {next : Stage}

theorem changeDirProp_baton {dir : Baton} {name : Bytes} {value : Option Bytes}
    (followed : tree.follow (.changeProp .dir dir name value) = some next) :
    dir = some tree.dir.baton := by
  simp only [Editing.follow, Option.bind_eq_bind, Option.bind_eq_some_iff] at followed
  obtain ⟨left, leaves, same⟩ := followed
  split at same
  · rename_i isDir
    rw [isDir, (leaveFile_keeps leaves).1]
  · cases same

theorem History.marked {before : List Call} (history : History before tree) :
    tree.dir.subdirs = true ↔ ∃ call ∈ before, call.OpensBelow (some tree.dir.baton) :=
  history.marks (tree.dir.baton, tree.dir.subdirs) List.mem_cons_self

end Props

end Subversion.Delta.Xml
