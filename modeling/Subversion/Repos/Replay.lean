/-
This file replays editor calls on a tree and shows what the calls for one file and one property list do.
-/

import Subversion.Lib.MapChanges
import Subversion.Repos.Delta

namespace Subversion.Repos

open Delta Fs Subr Lib Framing

section Session

/-- A directory that is being edited, with its name in the parent. -/
structure OpenDir where
  baton : Baton
  name : Bytes
  props : Bytes → Option Bytes
  entries : Bytes → Option Tree

def OpenDir.tree (dir : OpenDir) : Tree := .dir dir.props dir.entries

def OpenDir.set (dir : OpenDir) (name : Bytes) (tree : Option Tree) : OpenDir :=
  { dir with entries := Function.update dir.entries name tree }

structure OpenFile where
  baton : Baton
  name : Bytes
  props : Bytes → Option Bytes
  text : Bytes

def OpenFile.tree (file : OpenFile) : Tree := .file file.props file.text

/-- The directories that are open, the innermost first, and the file that is open in it. The result
is there when the root is closed. -/
structure Session where
  dirs : List OpenDir
  file : Option OpenFile
  next : Baton
  result : Option Tree

/-- A call for an entry gives the baton of the innermost directory, and no file is open. -/
def Session.inside (session : Session) (parent : Baton) (f : OpenDir → List OpenDir → Option Session) :
    Option Session :=
  match session.dirs, session.file with
  | dir :: rest, none => if dir.baton = parent then f dir rest else none
  | _, _ => none

def Session.inFile (session : Session) (baton : Baton) (f : OpenFile → Option OpenFile) : Option Session :=
  match session.file with
  | none => none
  | some file => if file.baton = baton then (f file).map fun file => { session with file := some file } else none

/-- The handler of the text applies the windows to the old text. -/
def applyWindows (text : Bytes) (windows : List (Option TxdeltaWindow)) : Option Bytes :=
  match consumeAll applyWindow (txdeltaApply text) windows with
  | (_, some _) => none
  | (final, none) => if final.closed then some final.target else none

def Session.enterDir (session : Session) (parent baton : Baton) (dir : OpenDir → Option OpenDir) :
    Option Session :=
  session.inside parent fun top rest =>
    if baton = session.next then
      (dir top).map fun opened =>
        { session with dirs := opened :: top :: rest, next := session.next + 1 }
    else none

def Session.enterFile (session : Session) (parent baton : Baton) (file : OpenDir → Option OpenFile) :
    Option Session :=
  session.inside parent fun top _ =>
    if baton = session.next then
      (file top).map fun opened => { session with file := some opened, next := session.next + 1 }
    else none

/-- An entry is added where there is none, without history, and opened where there is one of its kind.
A deletion of nothing changes nothing, as in the working copy. -/
def Session.accept (anchor : Tree) (session : Session) : EditorCall → Option Session
  | .setTargetRevision _ => some session
  | .openRoot _ baton =>
      match anchor, session.dirs, session.file, session.result with
      | .dir props entries, [], none, none =>
          if baton = session.next then
            some { session with dirs := [⟨baton, [], props, entries⟩], next := session.next + 1 }
          else none
      | _, _, _, _ => none
  | .deleteEntry name _ parent => session.inside parent fun dir rest =>
      some { session with dirs := dir.set name none :: rest }
  | .addDirectory name parent copyfrom _ baton => session.enterDir parent baton fun dir =>
      if dir.entries name = none ∧ copyfrom = none then some ⟨baton, name, fun _ => none, fun _ => none⟩
      else none
  | .openDirectory name parent _ baton => session.enterDir parent baton fun dir =>
      match dir.entries name with
      | some (.dir props entries) => some ⟨baton, name, props, entries⟩
      | _ => none
  | .changeDirProp baton name value => session.inside baton fun dir rest =>
      some { session with dirs := { dir with props := Function.update dir.props name value } :: rest }
  | .closeDirectory baton => session.inside baton fun dir rest =>
      match rest with
      | [] => some { session with dirs := [], result := some dir.tree }
      | parent :: others => some { session with dirs := parent.set dir.name (some dir.tree) :: others }
  | .addFile name parent copyfrom _ baton => session.enterFile parent baton fun dir =>
      if dir.entries name = none ∧ copyfrom = none then some ⟨baton, name, fun _ => none, []⟩ else none
  | .openFile name parent _ baton => session.enterFile parent baton fun dir =>
      match dir.entries name with
      | some (.file props text) => some ⟨baton, name, props, text⟩
      | _ => none
  | .applyTextdelta baton windows => session.inFile baton fun file =>
      (applyWindows file.text windows).map fun text => { file with text := text }
  | .changeFileProp baton name value => session.inFile baton fun file =>
      some { file with props := Function.update file.props name value }
  | .closeFile baton =>
      match session.dirs, session.file with
      | dir :: rest, some file =>
          if file.baton = baton then
            some { session with dirs := dir.set file.name (some file.tree) :: rest, file := none }
          else none
      | _, _ => none
  | .closeEdit =>
      match session.dirs, session.file, session.result with
      | [], none, some _ => some session
      | _, _, _ => none

def Session.step (anchor : Tree) (session : Session) : Step → Option Session
  | .access _ _ => some session
  | .call call => session.accept anchor call

def Session.run (anchor : Tree) (session : Session) (steps : List Step) : Option Session :=
  steps.foldlM (Session.step anchor) session

/-- The tree that the calls make out of the anchor, if they are allowed and close what they open. -/
def replay (anchor : Tree) (steps : List Step) : Option Tree :=
  (Session.run anchor ⟨[], none, 0, none⟩ steps).bind fun session =>
    match session.dirs, session.file with
    | [], none => session.result
    | _, _ => none

theorem Session.run_nil (anchor : Tree) (session : Session) : session.run anchor [] = some session := rfl

theorem Session.run_cons (anchor : Tree) (session : Session) (step : Step) (steps : List Step) :
    session.run anchor (step :: steps) = (session.step anchor step).bind fun next => next.run anchor steps :=
  rfl

theorem Session.run_append (anchor : Tree) (session : Session) (steps more : List Step) :
    session.run anchor (steps ++ more) = (session.run anchor steps).bind fun next => next.run anchor more :=
  List.foldlM_append

theorem Session.run_access (anchor : Tree) (session : Session) (side : Side) (path : Bytes)
    (steps : List Step) : session.run anchor (.access side path :: steps) = session.run anchor steps :=
  rfl

/-- Two runs one after the other. -/
theorem Session.run_trans {anchor : Tree} {first middle last : Session} {steps more : List Step}
    (before : first.run anchor steps = some middle) (after : middle.run anchor more = some last) :
    first.run anchor (steps ++ more) = some last := by
  rw [Session.run_append, before]
  exact after

end Session

section Nesting

def EditorCall.opens : EditorCall → Option Baton
  | .openRoot _ baton => some baton
  | .addDirectory _ _ _ _ baton => some baton
  | .openDirectory _ _ _ baton => some baton
  | .addFile _ _ _ _ baton => some baton
  | .openFile _ _ _ baton => some baton
  | _ => none

def EditorCall.closes : EditorCall → Option Baton
  | .closeDirectory baton => some baton
  | .closeFile baton => some baton
  | _ => none

/-- What is opened is closed, the innermost first. -/
def ClosesNested : List Baton → List Step → Prop
  | opened, [] => opened = []
  | opened, .access _ _ :: rest => ClosesNested opened rest
  | opened, .call call :: rest =>
      match call.opens, call.closes with
      | some baton, _ => ClosesNested (baton :: opened) rest
      | none, some baton => ∃ others, opened = baton :: others ∧ ClosesNested others rest
      | none, none => ClosesNested opened rest

/-- The batons in the order in which they are made. -/
def openedBatons : List Step → List Baton
  | [] => []
  | .access _ _ :: rest => openedBatons rest
  | .call call :: rest => call.opens.toList ++ openedBatons rest

/-- No baton is made twice, and each is closed once in nested order. -/
def NestedOnce (steps : List Step) : Prop := ClosesNested [] steps ∧ (openedBatons steps).Nodup

/-- The batons that are open, the innermost first. -/
def Session.stack (session : Session) : List Baton :=
  (session.file.map OpenFile.baton).toList ++ session.dirs.map OpenDir.baton

theorem Session.inside_eq_some {session after : Session} {parent : Baton}
    {f : OpenDir → List OpenDir → Option Session} (accepted : session.inside parent f = some after) :
    ∃ dir rest, session.dirs = dir :: rest ∧ session.file = none ∧ dir.baton = parent ∧
      f dir rest = some after := by
  rw [Session.inside] at accepted
  split at accepted
  · next dir rest isDirs isFile =>
      split at accepted
      · next same => exact ⟨dir, rest, isDirs, isFile, same, accepted⟩
      · cases accepted
  · cases accepted

theorem Session.enterDir_stack {session after : Session} {parent baton : Baton}
    {dir : OpenDir → Option OpenDir} (accepted : session.enterDir parent baton dir = some after)
    (named : ∀ top opened, dir top = some opened → opened.baton = baton) :
    baton = session.next ∧ after.stack = baton :: session.stack ∧ after.next = session.next + 1 := by
  obtain ⟨top, rest, isDirs, isFile, -, entered⟩ := Session.inside_eq_some accepted
  split at entered
  · next fresh =>
      obtain ⟨opened, made, rfl⟩ := Option.map_eq_some_iff.mp entered
      refine ⟨fresh, ?_, rfl⟩
      simp [Session.stack, isDirs, isFile, named top opened made]
  · cases entered

theorem Session.enterFile_stack {session after : Session} {parent baton : Baton}
    {file : OpenDir → Option OpenFile} (accepted : session.enterFile parent baton file = some after)
    (named : ∀ top opened, file top = some opened → opened.baton = baton) :
    baton = session.next ∧ after.stack = baton :: session.stack ∧ after.next = session.next + 1 := by
  obtain ⟨top, rest, isDirs, isFile, -, entered⟩ := Session.inside_eq_some accepted
  split at entered
  · next fresh =>
      obtain ⟨opened, made, rfl⟩ := Option.map_eq_some_iff.mp entered
      refine ⟨fresh, ?_, rfl⟩
      simp [Session.stack, isDirs, isFile, named top opened made]
  · cases entered

theorem Session.inFile_stack {session after : Session} {baton : Baton} {f : OpenFile → Option OpenFile}
    (accepted : session.inFile baton f = some after)
    (named : ∀ file changed, f file = some changed → changed.baton = file.baton) :
    after.stack = session.stack ∧ after.next = session.next := by
  rw [Session.inFile] at accepted
  split at accepted
  · cases accepted
  · next file isFile =>
      split at accepted
      · obtain ⟨changed, made, rfl⟩ := Option.map_eq_some_iff.mp accepted
        refine ⟨?_, rfl⟩
        simp [Session.stack, isFile, named file changed made]
      · cases accepted

/-- What a call does to the open batons. -/
def StackChange (session after : Session) (call : EditorCall) : Prop :=
  match call.opens, call.closes with
  | some baton, _ =>
      baton = session.next ∧ after.stack = baton :: session.stack ∧ after.next = session.next + 1
  | none, some baton => session.stack = baton :: after.stack ∧ after.next = session.next
  | none, none => after.stack = session.stack ∧ after.next = session.next

theorem Session.accept_stack {anchor : Tree} {session after : Session} {call : EditorCall}
    (accepted : session.accept anchor call = some after) : StackChange session after call := by
  cases call with
  | setTargetRevision revision =>
      cases accepted
      exact ⟨rfl, rfl⟩
  | openRoot revision baton =>
      simp only [Session.accept] at accepted
      split at accepted
      · next isDirs isFile _ =>
          split at accepted
          · next fresh =>
              cases accepted
              refine ⟨fresh, ?_, rfl⟩
              simp [Session.stack, isDirs, isFile]
          · cases accepted
      · cases accepted
  | deleteEntry name revision parent =>
      obtain ⟨dir, rest, isDirs, isFile, -, same⟩ := Session.inside_eq_some accepted
      cases same
      refine ⟨?_, rfl⟩
      simp [Session.stack, isDirs, isFile, OpenDir.set]
  | addDirectory name parent copyfrom revision baton =>
      apply Session.enterDir_stack accepted
      intro top opened made
      split at made
      · cases made
        rfl
      · cases made
  | openDirectory name parent revision baton =>
      apply Session.enterDir_stack accepted
      intro top opened made
      split at made
      · cases made
        rfl
      · cases made
  | changeDirProp baton name value =>
      obtain ⟨dir, rest, isDirs, isFile, -, same⟩ := Session.inside_eq_some accepted
      cases same
      refine ⟨?_, rfl⟩
      simp [Session.stack, isDirs, isFile]
  | closeDirectory baton =>
      obtain ⟨dir, rest, isDirs, isFile, top, same⟩ := Session.inside_eq_some accepted
      split at same
      · cases same
        refine ⟨?_, rfl⟩
        simp [Session.stack, isDirs, isFile, top]
      · cases same
        refine ⟨?_, rfl⟩
        simp [Session.stack, isDirs, isFile, top, OpenDir.set]
  | addFile name parent copyfrom revision baton =>
      apply Session.enterFile_stack accepted
      intro top opened made
      split at made
      · cases made
        rfl
      · cases made
  | openFile name parent revision baton =>
      apply Session.enterFile_stack accepted
      intro top opened made
      split at made
      · cases made
        rfl
      · cases made
  | applyTextdelta baton windows =>
      apply Session.inFile_stack accepted
      intro file changed made
      obtain ⟨text, -, rfl⟩ := Option.map_eq_some_iff.mp made
      rfl
  | changeFileProp baton name value =>
      apply Session.inFile_stack accepted
      intro file changed made
      cases made
      rfl
  | closeFile baton =>
      simp only [Session.accept] at accepted
      split at accepted
      · next dir rest file isDirs isFile =>
          split at accepted
          · next same =>
              cases accepted
              refine ⟨?_, rfl⟩
              simp [Session.stack, isDirs, isFile, same, OpenDir.set]
          · cases accepted
      · cases accepted
  | closeEdit =>
      simp only [Session.accept] at accepted
      split at accepted
      · cases accepted
        exact ⟨rfl, rfl⟩
      · cases accepted

/-- A run that ends with nothing open has closed all it opened and all that was open before. -/
theorem Session.run_nested {anchor : Tree} {last : Session} (ended : last.stack = []) (steps : List Step) :
    ∀ session : Session, session.run anchor steps = some last →
      ClosesNested session.stack steps ∧ (openedBatons steps).Nodup ∧
        ∀ baton ∈ openedBatons steps, session.next ≤ baton := by
  induction steps with
  | nil =>
      intro session same
      cases same
      exact ⟨ended, List.nodup_nil, fun _ absurd => by cases absurd⟩
  | cons step rest ih =>
      intro session runs
      cases step with
      | access side path => exact ih session runs
      | call call =>
          rw [Session.run_cons] at runs
          obtain ⟨after, accepted, continued⟩ := Option.bind_eq_some_iff.mp runs
          obtain ⟨nested, nodup, later⟩ := ih after continued
          have change := Session.accept_stack accepted
          rw [StackChange] at change
          rw [ClosesNested, openedBatons]
          cases opens : call.opens with
          | some baton =>
              rw [opens] at change
              obtain ⟨rfl, stack, next⟩ := change
              rw [stack] at nested
              rw [next] at later
              refine ⟨nested, ?_, ?_⟩
              · rw [Option.toList_some, List.singleton_append, List.nodup_cons]
                exact ⟨fun member => Nat.not_succ_le_self _ (later _ member), nodup⟩
              · intro baton member
                rcases List.mem_cons.mp member with rfl | member
                · exact le_rfl
                · exact (Nat.le_succ _).trans (later baton member)
          | none =>
              rw [opens] at change
              cases closes : call.closes with
              | some baton =>
                  rw [closes] at change
                  rw [change.2] at later
                  exact ⟨⟨after.stack, change.1, nested⟩, nodup, later⟩
              | none =>
                  rw [closes] at change
                  rw [change.1] at nested
                  rw [change.2] at later
                  exact ⟨nested, nodup, later⟩

/-- What can be replayed is nested. -/
theorem nestedOnce_of_replay {anchor tree : Tree} {steps : List Step}
    (replayed : replay anchor steps = some tree) : NestedOnce steps := by
  rw [replay] at replayed
  obtain ⟨last, runs, closed⟩ := Option.bind_eq_some_iff.mp replayed
  split at closed
  · next isDirs isFile =>
      have ended : last.stack = [] := by rw [Session.stack, isDirs, isFile]; rfl
      obtain ⟨nested, nodup, -⟩ := Session.run_nested ended steps _ runs
      exact ⟨nested, nodup⟩
  · cases closed

end Nesting

section Properties

theorem lookup_removeName {α : Type} (table : List (Bytes × α)) {name other : Bytes} (differ : other ≠ name) :
    (removeName name table).lookup other = table.lookup other := by
  apply lookup_filter
  intro entry _ same
  simpa [same] using differ

/-- Calls that change one property of what is open. -/
def ChangesProps (anchor : Tree) (place : (Bytes → Option Bytes) → Session)
    (change : Bytes → Option Bytes → EditorCall) : Prop :=
  ∀ props name value,
    (place props).accept anchor (change name value) = some (place (Function.update props name value))

variable {anchor : Tree} {place : (Bytes → Option Bytes) → Session}
  {change : Bytes → Option Bytes → EditorCall}

/-- Calls that make the changes of a list. -/
theorem run_changes (changes : ChangesProps anchor place change) (list : List (Bytes × Option Bytes)) :
    ∀ props, (place props).run anchor (list.map fun made => .call (change made.1 made.2)) =
      some (place (applyChanges props list)) := by
  induction list with
  | nil => exact fun props => rfl
  | cons made rest ih =>
      intro props
      rw [List.map_cons, Session.run_cons, Session.step, changes]
      exact ih _

/-- What the first loop does with a property of the target. -/
def targetChange (sourceProps : List (Bytes × Bytes)) (prop : Bytes × Bytes) :
    Option (Bytes × Option Bytes) :=
  if sourceProps.lookup prop.1 = some prop.2 then none else some (prop.1, some prop.2)

/-- Properties that are taken out of the source are not looked up again. -/
theorem changeTargetProps_eq (change : Bytes → Option Bytes → EditorCall)
    (targetProps : List (Bytes × Bytes)) :
    ∀ sourceProps : List (Bytes × Bytes), (targetProps.map Prod.fst).Nodup →
      changeTargetProps change targetProps sourceProps =
        ((targetProps.filterMap (targetChange sourceProps)).map fun made => .call (change made.1 made.2),
          sourceProps.filter fun prop => prop.1 ∉ targetProps.map Prod.fst) := by
  induction targetProps with
  | nil =>
      intro sourceProps _
      simp [changeTargetProps]
  | cons prop rest ih =>
      intro sourceProps nodup
      obtain ⟨name, value⟩ := prop
      rw [List.map_cons, List.nodup_cons] at nodup
      have remains : (removeName name sourceProps).filter (fun prop => prop.1 ∉ rest.map Prod.fst) =
          sourceProps.filter fun prop => prop.1 ∉ ((name, value) :: rest).map Prod.fst := by
        rw [removeName, List.filter_filter]
        apply List.filter_congr
        intro prop _
        rw [Bool.eq_iff_iff]
        simp [not_or, and_comm]
      have sameLookups : rest.filterMap (targetChange (removeName name sourceProps)) =
          rest.filterMap (targetChange sourceProps) := by
        apply List.filterMap_congr
        intro prop member
        have differ : prop.1 ≠ name := by
          have isLater := @List.mem_map_of_mem _ _ _ _ Prod.fst member
          rintro rfl
          exact nodup.1 isLater
        rw [targetChange, targetChange, lookup_removeName sourceProps differ]
      cases found : sourceProps.lookup name with
      | some old =>
          simp only [changeTargetProps, found, ih _ nodup.2, sameLookups, remains]
          by_cases same : old = value
          · rw [if_pos same, List.filterMap_cons_none (by rw [targetChange, found, same, if_pos rfl])]
          · rw [if_neg same, List.filterMap_cons_some (by
              rw [targetChange, found, if_neg fun equal => same (Option.some.inj equal)])]
            rfl
      | none =>
          have absent : removeName name sourceProps = sourceProps := by
            apply List.filter_eq_self.mpr
            intro prop member
            rw [lookup_eq_none_iff] at found
            simpa using fun same : prop.1 = name => found (same ▸ List.mem_map_of_mem member)
          simp only [changeTargetProps, found, ih _ nodup.2]
          rw [List.filterMap_cons_some (by rw [targetChange, found, if_neg nofun]), ← remains, absent]
          rfl

/-- The changes that lead from the properties of the source to those of the target. -/
def propChanges (c : Context) (source : Option Bytes) (target : Bytes)
    (sourceProps targetProps : List (Bytes × Bytes)) : List (Bytes × Option Bytes) :=
  (c.order.list ⟨.targetProps, source, target⟩ targetProps).filterMap (targetChange sourceProps) ++
    (c.order.list ⟨.sourceProps, source, target⟩
      (sourceProps.filter fun prop =>
        prop.1 ∉ (c.order.list ⟨.targetProps, source, target⟩ targetProps).map Prod.fst)).map
      fun prop => (prop.1, none)

theorem changeProps_eq (c : Context) (source : Option Bytes) (target : Bytes)
    (change : Bytes → Option Bytes → EditorCall) (sourceProps : List (Bytes × Bytes))
    (targetTable : PropTable) :
    changeProps c source target change sourceProps targetTable.list =
      (propChanges c source target sourceProps targetTable.list).map
        fun made => .call (change made.1 made.2) := by
  have perm := c.order.perm ⟨.targetProps, source, target⟩ targetTable.list
  have nodup := (perm.map Prod.fst).nodup_iff.mpr targetTable.nodup
  rw [changeProps, changeTargetProps_eq change _ sourceProps nodup, propChanges, List.map_append,
    List.map_map]
  rfl

theorem targetChange_eq_some_iff {sourceProps : List (Bytes × Bytes)} {prop : Bytes × Bytes}
    {made : Bytes × Option Bytes} :
    targetChange sourceProps prop = some made ↔
      sourceProps.lookup prop.1 ≠ some prop.2 ∧ (prop.1, some prop.2) = made := by
  rw [targetChange]
  split
  case isTrue same => exact ⟨nofun, fun made => absurd same made.1⟩
  case isFalse differ => exact ⟨fun made => ⟨differ, Option.some.inj made⟩, fun made => congrArg some made.2⟩

/-- The loops over the hashes find each difference once, in whatever order the hashes are read. -/
theorem propChanges_exact (c : Context) (source : Option Bytes) (target : Bytes)
    (sourceTable targetTable : PropTable) :
    Exact sourceTable.value targetTable.value
      (propChanges c source target sourceTable.list targetTable.list) := by
  have perm := c.order.perm ⟨.targetProps, source, target⟩ targetTable.list
  have nodup := (perm.map Prod.fst).nodup_iff.mpr targetTable.nodup
  rw [propChanges]
  refine @Exact.append _ _ _ _ _ _ (fun name => targetTable.value name ≠ none) ?_ ?_ ?_ ?_
  · exact nodup_filterMap_fst (fun prop made isMade =>
      congrArg Prod.fst (targetChange_eq_some_iff.mp isMade).2.symm) nodup
  · rw [List.map_map]
    refine ((c.order.perm _ _).map Prod.fst).nodup_iff.mpr ?_
    exact (List.filter_sublist.map Prod.fst).nodup sourceTable.nodup
  · intro name value
    rw [List.mem_filterMap]
    constructor
    · rintro ⟨prop, member, made⟩
      obtain ⟨differ, same⟩ := targetChange_eq_some_iff.mp made
      have found : targetTable.value prop.1 = some prop.2 :=
        (lookup_eq_some_iff targetTable.nodup).mpr (perm.mem_iff.mp member)
      obtain ⟨rfl, rfl⟩ := Prod.mk.inj same
      rw [found]
      exact ⟨nofun, differ, rfl⟩
    · rintro ⟨isThere, differ, rfl⟩
      obtain ⟨value, found⟩ := Option.ne_none_iff_exists'.mp isThere
      refine ⟨(name, value), perm.mem_iff.mpr ((lookup_eq_some_iff targetTable.nodup).mp found), ?_⟩
      rw [found] at differ ⊢
      exact targetChange_eq_some_iff.mpr ⟨differ, rfl⟩
  · intro name value
    have isTarget : name ∈ (c.order.list ⟨.targetProps, source, target⟩ targetTable.list).map Prod.fst ↔
        targetTable.value name ≠ none := by
      rw [(perm.map Prod.fst).mem_iff, PropTable.value, ne_eq, lookup_eq_none_iff, not_not]
    rw [List.mem_map]
    constructor
    · rintro ⟨prop, member, same⟩
      obtain ⟨inSource, absent⟩ := List.mem_filter.mp ((c.order.perm _ _).mem_iff.mp member)
      obtain ⟨rfl, rfl⟩ := Prod.mk.inj same
      have gone : targetTable.value prop.1 = none := by
        by_contra isThere
        exact of_decide_eq_true absent (isTarget.mpr isThere)
      have found : sourceTable.value prop.1 = some prop.2 :=
        (lookup_eq_some_iff sourceTable.nodup).mpr inSource
      rw [gone, found]
      exact ⟨fun isThere => isThere rfl, nofun, rfl⟩
    · rintro ⟨absent, differ, rfl⟩
      have gone := not_not.mp absent
      rw [gone] at differ ⊢
      obtain ⟨value, found⟩ := Option.ne_none_iff_exists'.mp differ
      refine ⟨(name, value), (c.order.perm _ _).mem_iff.mpr (List.mem_filter.mpr ⟨?_, ?_⟩), rfl⟩
      · exact (lookup_eq_some_iff sourceTable.nodup).mp found
      · exact decide_eq_true fun member => absent (isTarget.mp member)

/-- New values and the removal of all other names leave only the new values. -/
theorem patched_removed {α β : Type} {left all names : List (Bytes × β)}
    {new old : Bytes → Option α} (isLeft : left.Perm (all.filter fun entry => entry.1 ∉ names.map Prod.fst))
    (noOthers : ∀ name, name ∉ names.map Prod.fst → new name = none)
    (noMore : ∀ name, name ∉ all.map Prod.fst → old name = none) :
    patched (left.map Prod.fst) (fun _ => none) (patched (names.map Prod.fst) new old) = new := by
  rw [patched_perm (isLeft.map Prod.fst)]
  funext name
  rw [patched, patched]
  by_cases member : name ∈ names.map Prod.fst
  · rw [if_neg, if_pos member]
    intro removed
    obtain ⟨entry, isEntry, rfl⟩ := List.mem_map.mp removed
    exact absurd member (by simpa using (List.mem_filter.mp isEntry).2)
  · rw [if_neg member, noOthers name member]
    split
    · rfl
    · next kept =>
        apply noMore
        intro isOld
        obtain ⟨entry, isEntry, rfl⟩ := List.mem_map.mp isOld
        exact kept (List.mem_map_of_mem (List.mem_filter.mpr ⟨isEntry, by simpa using member⟩))

/-- The properties of the source become those of the target. -/
theorem run_changeProps (changes : ChangesProps anchor place change) (c : Context) (source : Option Bytes)
    (target : Bytes) (sourceTable targetTable : PropTable) :
    (place sourceTable.value).run anchor
      (changeProps c source target change sourceTable.list targetTable.list) =
        some (place targetTable.value) := by
  rw [changeProps_eq, run_changes changes, (propChanges_exact c source target _ _).applied]

end Properties

end Subversion.Repos
