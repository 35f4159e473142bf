/-
This file states the rules for the order of editor calls and what it means to handle every commit item once.
-/

import Subversion.Client.Commit

namespace Subversion.Client

open Delta Subr Wc

/-- The directories that are open with their paths, the innermost first, the files that are open,
and the file that was opened last if only its own calls came after it. -/
structure Editor where
  dirs : List (Baton × Bytes)
  files : List Baton
  recent : Option Baton
  next : Baton
  deriving DecidableEq

namespace Editor

def start : Editor := ⟨[], [], none, 0⟩

/-- A baton is the one of the directory right above a path, and no directory was opened after it. -/
def IsParent (editor : Editor) (parent : Baton) (path : Bytes) : Prop :=
  editor.dirs.head? = some (parent, removeComponent path) ∧ path ≠ []

instance (editor : Editor) (parent : Baton) (path : Bytes) : Decidable (editor.IsParent parent path) :=
  inferInstanceAs (Decidable (_ ∧ _))

/-- Properties belong to the file that was opened last, or else to the innermost directory. -/
def TakesProps (editor : Editor) (baton : Baton) : Prop :=
  editor.recent = some baton ∨
    (editor.recent = none ∧ editor.dirs.head?.map Prod.fst = some baton)

instance (editor : Editor) (baton : Baton) : Decidable (editor.TakesProps baton) :=
  inferInstanceAs (Decidable (_ ∨ _))

def enterDir (editor : Editor) (path : Bytes) (parent baton : Baton) : Option Editor :=
  if editor.IsParent parent path ∧ baton = editor.next then
    some { editor with dirs := (baton, path) :: editor.dirs, recent := none, next := baton + 1 }
  else none

def enterFile (editor : Editor) (path : Bytes) (parent baton : Baton) : Option Editor :=
  if editor.IsParent parent path ∧ baton = editor.next then
    some { editor with files := editor.files ++ [baton], recent := some baton, next := baton + 1 }
  else none

/-- The state after one call, if the rules allow the call. The text of a file comes with its other
calls or after all directories are closed. -/
def accept (editor : Editor) : EditorCall → Option Editor
  | .openRoot baton =>
      if editor = start ∧ baton = 0 then some { editor with dirs := [(baton, [])], next := 1 } else none
  | .deleteEntry path _ parent =>
      if editor.IsParent parent path then some { editor with recent := none } else none
  | .addDirectory path parent _ _ baton => editor.enterDir path parent baton
  | .openDirectory path parent _ baton => editor.enterDir path parent baton
  | .closeDirectory baton =>
      match editor.dirs with
      | [] => none
      | dir :: dirs => if dir.1 = baton then some { editor with dirs := dirs, recent := none } else none
  | .addFile path parent _ _ baton => editor.enterFile path parent baton
  | .openFile path parent _ baton => editor.enterFile path parent baton
  | .transmitPropDeltas _ baton => if editor.TakesProps baton then some editor else none
  | .closeFile baton =>
      if editor.recent = some baton then
        some { editor with files := editor.files.erase baton, recent := none }
      else none
  | .transmitTextDeltas _ _ baton =>
      if editor.dirs = [] ∧ baton ∈ editor.files then
        some { editor with files := editor.files.erase baton, recent := none }
      else none
  | .closeEdit => if editor.dirs = [] ∧ editor.files = [] then some editor else none

def run (editor : Editor) (calls : List EditorCall) : Option Editor := calls.foldlM accept editor

theorem run_nil (editor : Editor) : editor.run [] = some editor := rfl

theorem run_cons (editor : Editor) (call : EditorCall) (calls : List EditorCall) :
    editor.run (call :: calls) = (editor.accept call).bind fun next => next.run calls := rfl

theorem run_append (editor : Editor) (calls more : List EditorCall) :
    editor.run (calls ++ more) = (editor.run calls).bind fun next => next.run more :=
  List.foldlM_append

/-- Every call of an accepted run is accepted in some state. -/
theorem accepted_of_mem {call : EditorCall} :
    ∀ {calls : List EditorCall} {editor final : Editor}, editor.run calls = some final → call ∈ calls →
      ∃ before after, accept before call = some after := by
  intro calls
  induction calls with
  | nil => exact fun _ member => by cases member
  | cons first calls ih =>
      intro editor final accepted member
      rw [run_cons, Option.bind_eq_some_iff] at accepted
      obtain ⟨after, step, rest⟩ := accepted
      rcases List.mem_cons.mp member with rfl | later
      · exact ⟨editor, after, step⟩
      · exact ih rest later

end Editor

section Items

/-- The call that makes the baton of an item, if the item needs one. -/
def entryCalls (item : CommitItem) (parent baton : Baton) : List EditorCall :=
  if item.kind = .file then
    if item.stateFlags.add then [.addFile item.url parent item.copyfromUrl item.revision baton]
    else if item.stateFlags.propMods || item.stateFlags.textMods then
      [.openFile item.url parent item.revision baton]
    else []
  else if item.stateFlags.add then
    [.addDirectory item.url parent item.copyfromUrl item.revision baton]
  else if item.stateFlags.propMods then [.openDirectory item.url parent item.revision baton]
  else []

/-- The calls that handle an item with the baton of its parent. A file with a new text is closed
later. -/
def itemCalls (item : CommitItem) (parent baton : Baton) : List EditorCall :=
  (if item.stateFlags.delete then [.deleteEntry item.url item.revision parent] else []) ++
    entryCalls item parent baton ++
    (if item.stateFlags.propMods then [.transmitPropDeltas item.path baton] else []) ++
    if item.kind = .file ∧ (item.stateFlags.add || item.stateFlags.propMods) ∧
      item.stateFlags.textMods = false then [.closeFile baton] else []

/-- The part of a drive that belongs to one item. On the way to it directories are closed and
opened. -/
structure Segment where
  item : CommitItem
  closed : List Baton
  opened : List (Bytes × Baton × Baton)
  parent : Baton
  baton : Baton

def Segment.calls (segment : Segment) : List EditorCall :=
  segment.closed.map .closeDirectory ++
    segment.opened.map (fun dir => .openDirectory dir.1 dir.2.1 invalidRevnum dir.2.2) ++
    itemCalls segment.item segment.parent segment.baton

/-- The directories on the way are those above the item, from some one on. -/
def Segment.OnTheWay (segment : Segment) : Prop :=
  ∃ (components : List Bytes) (length : Nat), (∀ component ∈ components, IsComponent component) ∧
    segment.item.url = joinPath components ∧
    segment.opened.map Prod.fst = (Lib.prefixesBeyond length components.dropLast).map joinPath

def Segment.hasText (segment : Segment) : Bool :=
  segment.item.kind = .file && segment.item.stateFlags.textMods

def Segment.textCall (segment : Segment) : EditorCall :=
  .transmitTextDeltas segment.item.path segment.item.stateFlags.add segment.baton

/-- Every item is handled once: the calls are those for the items, on the way to them, and at the
end. -/
structure HandlesOnce (items : List CommitItem) (calls : List EditorCall) (segments : List Segment)
    (closing : List Baton) : Prop where
  items_eq : segments.map Segment.item = items
  onTheWay : ∀ segment ∈ segments, segment.OnTheWay
  calls_eq : calls = [.openRoot 0] ++ segments.flatMap Segment.calls ++
    closing.map .closeDirectory ++ (segments.filter Segment.hasText).map Segment.textCall ++ [.closeEdit]

def openedPath : EditorCall → Option Bytes
  | .addDirectory path _ _ _ _ => some path
  | .openDirectory path _ _ _ => some path
  | _ => none

/-- The calls for a list of items obey the rules. -/
structure ObeysOrdering (items : List CommitItem) (calls : List EditorCall) : Prop where
  handled : ∃ segments closing, HandlesOnce items calls segments closing
  accepted : ∃ final, Editor.start.run calls = some final
  openedOnce : (calls.filterMap openedPath).Nodup

end Items

end Subversion.Client
