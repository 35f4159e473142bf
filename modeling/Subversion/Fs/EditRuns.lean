/-
This file shows what a sequence of edits leaves of a file, and when it can be carried out.
-/

import Subversion.Fs.RoleRuns
import Subversion.Fs.Edits

namespace Subversion.Fs

open Delta Transactions

/-- The pieces that are written to a file, and whether the edit is finalized. -/
structure FileEdit where
  pieces : List Bytes
  finalized : Bool
  deriving DecidableEq, Repr

namespace Trail

def runEdit (depth : Nat) (id : NodeId) (edit : FileEdit) : Trail Unit := do
  let key ← getEditStream depth id
  edit.pieces.forM (streamWrite key)
  if edit.finalized = true then finalizeEdits id else pure ()

def runEdits (depth : Nat) (id : NodeId) (edits : List FileEdit) : Trail Unit :=
  edits.forM (runEdit depth id)

end Trail

/-- The file has a new rep with this text, and its mutable reps from before are gone. -/
structure Superseded (fs next : Filesystem) (id : NodeId) (node : NodeRev) (key : Nat) (text : Bytes) :
    Prop where
  finished : Finished next id node key text
  new : fs.store.nextRep ≤ key
  kept : ∀ other, other < fs.store.nextRep →
    next.store.reps other = fs.store.reps other ∨ next.store.reps other = none
  created : ∀ other, fs.store.nextRep ≤ other → other ≠ key → next.store.reps other = none
  old : ∀ other rep, node.dataKey = some other → next.store.reps other = some rep →
    rep.mutable = false

section Edits

variable {fs next : Filesystem} {id : NodeId} {node : NodeRev} {key depth : Nat} {text : Bytes}

theorem Editing.writeAll (editing : Editing fs id node key text) (pieces : List Bytes) :
    ∃ next, pieces.forM (Trail.streamWrite key) fs = .ok ((), next) ∧
      Editing next id node key (text ++ pieces.flatten) ∧ next.store.reps = fs.store.reps := by
  induction pieces generalizing fs text with
  | nil => exact ⟨fs, rfl, by rw [List.flatten_nil, List.append_nil]; exact editing, rfl⟩
  | cons piece pieces ih =>
      obtain ⟨middle, wrote, more, same⟩ := editing.write piece
      obtain ⟨next, rest, all, reps⟩ := ih more
      refine ⟨next, ?_, ?_, reps.trans same⟩
      · show (Trail.streamWrite key piece >>= fun _ => pieces.forM (Trail.streamWrite key)) fs = _
        rw [bind_run wrote]
        exact rest
      · rw [List.flatten_cons, ← List.append_assoc]
        exact all

/-- The data key names a rep that is there. -/
def DataStored (fs : Filesystem) (node : NodeRev) : Prop :=
  ∀ old, node.dataKey = some old → fs.store.reps old ≠ none

/-- A mutable file whose keys were handed out. -/
structure EditableFile (fs : Filesystem) (id : NodeId) (node : NodeRev) : Prop where
  reps : RepsReachable fs.store
  found : fs.node id = some node
  isFile : node.kind = .file
  mutable : node.rev = none
  small : ∀ old, node.dataKey = some old → old < fs.store.nextRep

theorem Finished.editable (finished : Finished fs id node key text) :
    EditableFile fs id { node with dataKey := some key, editKey := none } := by
  refine ⟨finished.reps, finished.found, finished.isFile, finished.mutable, ?_⟩
  rintro _ ⟨⟩
  obtain ⟨strKey, stored, -⟩ := finished.holds
  exact finished.reps.invariant.in_range stored

theorem Finished.dataStored (finished : Finished fs id node key text) :
    DataStored fs { node with dataKey := some key, editKey := none } := by
  rintro _ ⟨⟩
  obtain ⟨strKey, stored, -⟩ := finished.holds
  rw [stored]
  simp

/-- An edit starts only when no edit is pending. -/
theorem EditableFile.start (editable : EditableFile fs id node) (pieces : List Bytes)
    (unedited : node.editKey = none) (depth : Nat) :
    ∃ started middle, Trail.getEditStream depth id fs = .ok (fs.store.nextRep, started) ∧
      pieces.forM (Trail.streamWrite fs.store.nextRep) started = .ok ((), middle) ∧
      Editing middle id node fs.store.nextRep pieces.flatten ∧
      ∀ other, other ≠ fs.store.nextRep → middle.store.reps other = fs.store.reps other := by
  obtain ⟨key, started, ran⟩ := Trail.getEditStream_starts editable.found editable.isFile
    editable.mutable unedited depth
  obtain ⟨node', found, -, editing, rfl, others⟩ := Editing.start editable.reps
    (fun node' old found named => editable.small old (by
      rw [editable.found] at found
      cases found
      exact named)) ran
  rw [editable.found] at found
  cases found
  obtain ⟨middle, wrote, all, same⟩ := editing.writeAll pieces
  exact ⟨started, middle, ran, wrote, all, fun other distinct => by rw [same, others other distinct]⟩

/-- The steps of an edit, when it succeeds. -/
theorem EditableFile.edit (editable : EditableFile fs id node) {edit : FileEdit}
    (ran : Trail.runEdit depth id edit fs = .ok ((), next)) : node.editKey = none ∧
      ((edit.finalized = false ∧ Editing next id node fs.store.nextRep edit.pieces.flatten) ∨
        (edit.finalized = true ∧ DataStored fs node ∧
          Superseded fs next id node fs.store.nextRep edit.pieces.flatten)) := by
  obtain ⟨key, started, opened, rest⟩ := bind_ok.mp ran
  obtain ⟨node', -, found, -, -, unedited, -⟩ := Trail.getEditStream_ok.mp opened
  rw [editable.found] at found
  cases found
  obtain ⟨_, middle, again, wrote, editing, others⟩ := editable.start edit.pieces unedited depth
  rw [opened] at again
  cases again
  rw [bind_run wrote] at rest
  refine ⟨unedited, ?_⟩
  cases finalized : edit.finalized with
  | false =>
      rw [finalized, if_neg (by simp)] at rest
      obtain ⟨-, rfl⟩ := pure_ok.mp rest
      exact Or.inl ⟨rfl, editing⟩
  | true =>
      rw [finalized, if_pos rfl] at rest
      obtain ⟨finished, old, kept⟩ := editing.finalize rest
      have distinct {other : Nat} (named : node.dataKey = some other) : other ≠ fs.store.nextRep :=
        (editable.small other named).ne
      refine Or.inr ⟨rfl, ?_, finished, le_rfl, ?_, ?_, fun other rep named => (old other named).2 rep⟩
      · intro other named
        rw [← others other (distinct named)]
        exact (old other named).1
      · intro other small
        rw [← others other small.ne]
        exact kept other
      · intro other large different
        rcases kept other with same | gone
        · rw [same, others other different]
          exact editable.reps.invariant.freshReps other large
        · exact gone

theorem Superseded.nextRep_le (superseded : Superseded fs next id node key text) :
    fs.store.nextRep ≤ next.store.nextRep := by
  obtain ⟨strKey, stored, -⟩ := superseded.finished.holds
  exact superseded.new.trans (superseded.finished.reps.invariant.in_range stored).le

/-- Of two edits one after the other, only the second is left. -/
theorem Superseded.trans {middle : Filesystem} {first : Nat} {earlier : Bytes}
    (small : ∀ old, node.dataKey = some old → old < fs.store.nextRep)
    (one : Superseded fs middle id node first earlier)
    (two : Superseded middle next id { node with dataKey := some first, editKey := none } key text) :
    Superseded fs next id node key text := by
  have le := one.nextRep_le
  obtain ⟨strKey, stored, -⟩ := one.finished.holds
  have gone : next.store.reps first = none := by
    rcases two.kept first (one.finished.reps.invariant.in_range stored) with same | gone
    · have flag := two.old first _ rfl (same.trans stored)
      cases flag
    · exact gone
  obtain ⟨reps, found, isFile, mutable, holds⟩ := two.finished
  refine ⟨⟨reps, found, isFile, mutable, holds⟩, le.trans two.new, ?_, ?_, ?_⟩
  · intro other older
    rcases two.kept other (older.trans_le le) with same | lost
    · rw [same]
      exact one.kept other older
    · exact Or.inr lost
  · intro other newer distinct
    by_cases isFirst : other = first
    · rw [isFirst, gone]
    · by_cases older : other < middle.store.nextRep
      · rcases two.kept other older with same | lost
        · rw [same]
          exact one.created other newer isFirst
        · exact lost
      · exact two.created other (not_lt.mp older) distinct
  · intro other rep named left
    rcases two.kept other ((small other named).trans_le le) with same | lost
    · exact one.old other rep named (same.symm.trans left)
    · rw [lost] at left
      cases left

/-- A sequence that succeeds has finalized all its edits. -/
theorem EditableFile.edits (editable : EditableFile fs id node) {edits : List FileEdit} {last : FileEdit}
    (finalized : last.finalized = true)
    (ran : Trail.runEdits depth id (edits ++ [last]) fs = .ok ((), next)) :
    node.editKey = none ∧ DataStored fs node ∧ (∀ edit ∈ edits, edit.finalized = true) ∧
      ∃ key, Superseded fs next id node key last.pieces.flatten := by
  induction edits generalizing fs node with
  | nil =>
      obtain ⟨_, middle, ranLast, rest⟩ := bind_ok.mp ran
      obtain ⟨-, rfl⟩ := pure_ok.mp rest
      obtain ⟨unedited, ⟨unfinished, -⟩ | ⟨-, stored, superseded⟩⟩ := editable.edit ranLast
      · rw [finalized] at unfinished
        cases unfinished
      · exact ⟨unedited, stored, by simp, _, superseded⟩
  | cons edit edits ih =>
      obtain ⟨_, middle, ranFirst, rest⟩ := bind_ok.mp ran
      obtain ⟨unedited, ⟨-, editing⟩ | ⟨isFinalized, stored, superseded⟩⟩ := editable.edit ranFirst
      · -- the next edit, whichever it is, finds the key of this one
        exfalso
        obtain ⟨second, others, same⟩ : ∃ second others, edits ++ [last] = second :: others := by
          cases edits with
          | nil => exact ⟨last, [], rfl⟩
          | cons second others => exact ⟨second, others ++ [last], rfl⟩
        have rest : Trail.runEdits depth id (edits ++ [last]) middle = .ok ((), next) := rest
        rw [same] at rest
        obtain ⟨_, _, ranSecond, -⟩ := bind_ok.mp rest
        obtain ⟨_, _, opened, -⟩ := bind_ok.mp ranSecond
        obtain ⟨_, -, found, -, -, none, -⟩ := Trail.getEditStream_ok.mp opened
        rw [editing.found] at found
        cases found
        cases none
      · obtain ⟨-, -, all, key, later⟩ := ih superseded.finished.editable rest
        refine ⟨unedited, stored, ?_, key, superseded.trans editable.small later⟩
        rw [List.forall_mem_cons]
        exact ⟨isFinalized, all⟩

theorem EditableFile.finishes (editable : EditableFile fs id node) (unedited : node.editKey = none)
    (stored : DataStored fs node) {edit : FileEdit} (finalized : edit.finalized = true) (depth : Nat) :
    ∃ next, Trail.runEdit depth id edit fs = .ok ((), next) := by
  obtain ⟨started, middle, opened, wrote, editing, others⟩ := editable.start edit.pieces unedited depth
  obtain ⟨next, finishes⟩ := editing.finalizes fun old named => by
    rw [others old (editable.small old named).ne]
    exact stored old named
  refine ⟨next, ?_⟩
  rw [Trail.runEdit, bind_run opened, bind_run wrote, finalized, if_pos rfl]
  exact finishes

/-- Edits that are all finalized succeed one after the other. -/
theorem EditableFile.runs (editable : EditableFile fs id node) (unedited : node.editKey = none)
    (stored : DataStored fs node) {edits : List FileEdit}
    (finalized : ∀ edit ∈ edits, edit.finalized = true) (depth : Nat) :
    ∃ next, Trail.runEdits depth id edits fs = .ok ((), next) := by
  induction edits generalizing fs node with
  | nil => exact ⟨fs, rfl⟩
  | cons edit edits ih =>
      obtain ⟨isFinalized, all⟩ := List.forall_mem_cons.mp finalized
      obtain ⟨middle, ran⟩ := editable.finishes unedited stored isFinalized depth
      obtain ⟨-, ⟨unfinished, -⟩ | ⟨-, -, superseded⟩⟩ := editable.edit ran
      · rw [isFinalized] at unfinished
        cases unfinished
      · obtain ⟨next, rest⟩ := ih superseded.finished.editable rfl superseded.finished.dataStored all
        refine ⟨next, ?_⟩
        show (Trail.runEdit depth id edit >>= fun _ => Trail.runEdits depth id edits) fs = _
        rw [bind_run ran]
        exact rest

end Edits

/-- An edit starts if and only if none is pending. A sequence of edits leaves the text of the last one
and no other mutable rep if and only if no edit is pending when another one starts, and the old data
are stored. -/
theorem edits_succeed_iff {fs : Filesystem} {streams : List Trail.Stream}
    (reachable : FsReachable fs streams) {id : NodeId} {node : NodeRev} (found : fs.node id = some node)
    (isFile : node.kind = .file) (mutable : node.rev = none) (depth : Nat) :
    ((∃ key next after, Trail.getEditStream depth id fs = .ok (key, next) ∧
        next.node id = some after ∧ isValidNodeRevision after = true ∧ after.editKey = some key) ↔
      node.editKey = none) ∧
    ∀ edits last, last.finalized = true →
      ((∃ next after key, Trail.runEdits depth id (edits ++ [last]) fs = .ok ((), next) ∧
          FileReads next id last.pieces.flatten ∧ next.node id = some after ∧
          isValidNodeRevision after = true ∧ after.editKey = none ∧ after.dataKey = some key ∧
          ∀ other rep, other ≠ key → (node.dataKey = some other ∨ node.editKey = some other ∨
            fs.store.nextRep ≤ other) → next.store.reps other = some rep → rep.mutable = false) ↔
        node.editKey = none ∧ (∀ edit ∈ edits, edit.finalized = true) ∧
          ∀ old, node.dataKey = some old → fs.store.reps old ≠ none) := by
  obtain ⟨kinds, lists, sound⟩ := reachable.sound
  have editable : EditableFile fs id node := ⟨sound.reps, found, isFile, mutable,
    fun old named => ((sound.fits found).data old named).1⟩
  constructor
  · constructor
    · rintro ⟨key, next, after, opened, -⟩
      obtain ⟨_, -, again, -, -, unedited, -⟩ := Trail.getEditStream_ok.mp opened
      rw [found] at again
      cases again
      exact unedited
    · intro unedited
      obtain ⟨started, -, opened, -⟩ := editable.start [] unedited depth
      obtain ⟨_, store, again, -, -, -, -, rfl⟩ := Trail.getEditStream_ok.mp opened
      rw [found] at again
      cases again
      refine ⟨_, _, { node with editKey := some fs.store.nextRep }, opened, ?_, ?_, rfl⟩
      · rw [Filesystem.node_putNode, if_pos rfl]
      · simp [isValidNodeRevision, isFile, mutable]
  · intro edits last finalized
    constructor
    · rintro ⟨next, -, -, ran, -⟩
      obtain ⟨unedited, stored, all, -⟩ := editable.edits finalized ran
      exact ⟨unedited, all, stored⟩
    · rintro ⟨unedited, all, stored⟩
      obtain ⟨next, ran⟩ := editable.runs unedited stored
        (fun edit (member : edit ∈ edits ++ [last]) => by
          rcases List.mem_append.mp member with earlier | isLast
          · exact all edit earlier
          · rw [List.mem_singleton.mp isLast]
            exact finalized) depth
      obtain ⟨-, -, -, key, superseded⟩ := editable.edits finalized ran
      refine ⟨next, _, key, ran, superseded.finished.reads, superseded.finished.found, by
        simp [isValidNodeRevision], rfl, rfl, ?_⟩
      rintro other rep distinct (named | pending | newer) left
      · exact superseded.old other rep named left
      · rw [unedited] at pending
        cases pending
      · rw [superseded.created other newer distinct] at left
        cases left

theorem edits_succeed_iff_twice :
    ∃ next, Trail.runEdits 1 [1, 1] [⟨[[6]], true⟩, ⟨[[7], [8]], true⟩] rootWithFile.1 = .ok ((), next) ∧
      FileReads next [1, 1] [7, 8] := by
  have found : rootWithFile.1.node [1, 1] = some ⟨.file, none, none, none, none, none⟩ := by
    decide +kernel
  obtain ⟨-, sequences⟩ := edits_succeed_iff rootWithFile_reachable found rfl rfl 1
  obtain ⟨next, -, -, ran, reads, -⟩ :=
    (sequences [⟨[[6]], true⟩] ⟨[[7], [8]], true⟩ rfl).mpr ⟨rfl, by simp, by simp⟩
  exact ⟨next, ran, reads⟩

/-- The file of the root directory is being edited. -/
def rootWithEdit : Filesystem × List Trail.Stream :=
  startedWith [.beginTxn 0, .make (.txn 0) [97] .file, .applyTextdelta (.txn 0) [97]]

/-- The edit that was left unfinished keeps every other one from being started. -/
theorem pending_edit_blocks_edits : FsReachable rootWithEdit.1 rootWithEdit.2 ∧
    rootWithEdit.1.node [1, 1] = some ⟨.file, none, none, none, none, some 1⟩ ∧
    ∀ depth key next, Trail.getEditStream depth [1, 1] rootWithEdit.1 ≠ .ok (key, next) := by
  have found : rootWithEdit.1.node [1, 1] = some ⟨.file, none, none, none, none, some 1⟩ := by
    decide +kernel
  refine ⟨startedWith_reachable (by simp [FsOp.Allowed]), found, fun depth key next opened => ?_⟩
  obtain ⟨_, -, again, -, -, unedited, -⟩ := Trail.getEditStream_ok.mp opened
  rw [found] at again
  cases again
  cases unedited

end Subversion.Fs
