/-
This file shows how a new text of a file is started, written, and finished.
-/

import Subversion.Fs.FileTexts
import Subversion.Fs.Runs

namespace Subversion.Fs

open Delta Transactions

/-- The rep is a mutable fulltext with this text. -/
def HoldsText (store : Store) (key : Nat) (text : Bytes) : Prop :=
  ∃ strKey, store.reps key = some (fulltextRep true strKey) ∧ store.strings.text strKey = some text

/-- A new text of the file is written to a rep of its own, this far. -/
structure Editing (fs : Filesystem) (id : NodeId) (node : NodeRev) (key : Nat) (text : Bytes) : Prop where
  reps : RepsReachable fs.store
  found : fs.node id = some { node with editKey := some key }
  isFile : node.kind = .file
  mutable : node.rev = none
  distinct : node.dataKey ≠ some key
  holds : HoldsText fs.store key text

/-- The file has a mutable rep with this text, and no edit is under way. -/
structure Finished (fs : Filesystem) (id : NodeId) (node : NodeRev) (key : Nat) (text : Bytes) : Prop where
  reps : RepsReachable fs.store
  found : fs.node id = some { node with dataKey := some key, editKey := none }
  isFile : node.kind = .file
  mutable : node.rev = none
  holds : HoldsText fs.store key text

section Texts

variable {store next : Store} {key old : Nat} {text : Bytes}

/-- A write adds to the text. -/
theorem HoldsText.write (reachable : RepsReachable store) (holds : HoldsText store key text)
    (bytes : Bytes) : ∃ next, repWrite store key bytes = .ok next ∧ RepsReachable next ∧
      next.reps = store.reps ∧ HoldsText next key (text ++ bytes) := by
  obtain ⟨strKey, found, present⟩ := holds
  obtain ⟨next, wrote, same⟩ : ∃ next, repWrite store key bytes = .ok next ∧ next.reps = store.reps := by
    rw [repWrite, readRep, found]
    exact ⟨_, rfl, rfl⟩
  obtain ⟨rep, other, stored, kind, -, -, grown⟩ := reachable.invariant.repWrite_replaces wrote
  rw [found] at stored
  cases stored
  cases kind
  refine ⟨next, wrote, reachable.step (show runRepOp store 0 (.write key bytes) = .ok next from wrote),
    same, strKey, ?_, grown text present⟩
  rw [same, found]

/-- The deletion of another rep leaves the text alone. -/
theorem HoldsText.delete (reachable : RepsReachable store) (holds : HoldsText store key text)
    (distinct : old ≠ key) (deleted : deleteRepIfMutable store old = .ok next) :
    RepsReachable next ∧ HoldsText next key text ∧
      ∀ rep, next.reps old = some rep → rep.mutable = false := by
  refine ⟨reachable.step (show runRepOp store 0 (.deleteIfMutable old) = .ok next from deleted), ?_⟩
  obtain ⟨rep, found, -, ⟨flag, rfl⟩ | ⟨-, replaces⟩⟩ :=
    reachable.invariant.deleteRepIfMutable_replaces deleted
  · refine ⟨holds, fun other stored => ?_⟩
    rw [found] at stored
    cases stored
    exact flag
  · obtain ⟨strKey, stored, present⟩ := holds
    refine ⟨⟨strKey, (replaces.other distinct.symm).trans stored,
      text_of_kept (replaces.kept key _ distinct.symm stored strKey (List.mem_singleton_self _)) present⟩, ?_⟩
    intro other left
    rw [replaces.this] at left
    cases left

theorem HoldsText.serves (holds : HoldsText store key text) (depth : Nat) :
    Serves (repReadRange store (depth + 1)) key text ∧
      repContentsSize store key = .ok text.length := by
  obtain ⟨strKey, found, present⟩ := holds
  exact fulltext_serves found rfl present depth

end Texts

section Edits

variable {fs next : Filesystem} {id : NodeId} {node : NodeRev} {key depth : Nat} {text : Bytes}

/-- With an edit key, a second one would be appended, and the node would no longer be valid. -/
theorem Trail.getEditStream_ok : Trail.getEditStream depth id fs = .ok (key, next) ↔
    ∃ node store, fs.node id = some node ∧ node.kind = .file ∧ node.rev = none ∧ node.editKey = none ∧
      getMutableRep fs.store depth none = .ok (key, store) ∧
      next = (fs.setStore store).putNode id { node with editKey := some key } := by
  simp only [Trail.getEditStream, bind_ok, Trail.getNodeRevision_ok, ensure_ok, withStore_ok, get_ok,
    Trail.putNodeRevision_ok, pure_ok]
  constructor
  · rintro ⟨node, _, ⟨found, rfl⟩, -, _, ⟨isFile, rfl⟩, -, _, ⟨mutable, rfl⟩, _, middle, ranDelete, _, _,
      ⟨store, got, rfl⟩, _, _, ⟨rfl, rfl⟩, -, _, ⟨unedited, rfl⟩, _, _, ⟨-, rfl⟩, rfl, rfl⟩
    rw [unedited] at ranDelete
    obtain ⟨-, rfl⟩ := pure_ok.mp ranDelete
    exact ⟨node, store, found, isFile, mutable, unedited, got, rfl⟩
  · rintro ⟨node, store, found, isFile, mutable, unedited, got, rfl⟩
    refine ⟨node, fs, ⟨found, rfl⟩, (), fs, ⟨isFile, rfl⟩, (), fs, ⟨mutable, rfl⟩, (), fs, ?_, key, _,
      ⟨store, got, rfl⟩, _, _, ⟨rfl, rfl⟩, (), _, ⟨unedited, rfl⟩, (), _, ⟨?_, rfl⟩, rfl, rfl⟩
    · rw [unedited]
      exact pure_ok.mpr ⟨rfl, rfl⟩
    · simp [isValidNodeRevision, isFile, mutable]

/-- Without an edit under way, an edit can be started. -/
theorem Trail.getEditStream_starts (found : fs.node id = some node) (isFile : node.kind = .file)
    (mutable : node.rev = none) (unedited : node.editKey = none) (depth : Nat) :
    ∃ key next, Trail.getEditStream depth id fs = .ok (key, next) :=
  ⟨_, _, Trail.getEditStream_ok.mpr ⟨node, _, found, isFile, mutable, unedited, rfl, rfl⟩⟩

theorem Editing.start (reachable : RepsReachable fs.store)
    (small : ∀ node old, fs.node id = some node → node.dataKey = some old → old < fs.store.nextRep)
    (ran : Trail.getEditStream depth id fs = .ok (key, next)) :
    ∃ node, fs.node id = some node ∧ node.editKey = none ∧ Editing next id node key [] ∧
      key = fs.store.nextRep ∧
      ∀ other, other ≠ key → next.store.reps other = fs.store.reps other := by
  obtain ⟨node, store, found, isFile, mutable, unedited, got, rfl⟩ := Trail.getEditStream_ok.mp ran
  have reached : RepsReachable store :=
    reachable.step (show runRepOp fs.store depth (.getMutable none) = .ok store by
      rw [runRepOp, got]
      rfl)
  rcases reachable.invariant.getMutableRep_replaces got with
    ⟨⟨⟩, -⟩ | ⟨rfl, -, strKey, bytes, replaces, text, empty, -⟩
  obtain rfl := empty rfl
  refine ⟨node, found, unedited, ⟨reached, ?_, isFile, mutable, ?_, strKey, replaces.this, text⟩, rfl,
    fun other distinct => replaces.other distinct⟩
  · rw [Filesystem.node_putNode, if_pos rfl]
  · intro same
    exact lt_irrefl _ (small node _ found same)

theorem Editing.write (editing : Editing fs id node key text) (bytes : Bytes) :
    ∃ next, Trail.streamWrite key bytes fs = .ok ((), next) ∧
      Editing next id node key (text ++ bytes) ∧ next.store.reps = fs.store.reps := by
  obtain ⟨reps, found, isFile, mutable, distinct, holds⟩ := editing
  obtain ⟨store, wrote, reached, same, more⟩ := holds.write reps bytes
  refine ⟨fs.setStore store, ?_, ⟨reached, found, isFile, mutable, distinct, more⟩, same⟩
  rw [Trail.streamWrite, wrote]
  rfl

/-- The data of the file are replaced before the old ones are deleted. -/
theorem Editing.finalize_ok (editing : Editing fs id node key text) :
    Trail.finalizeEdits id fs = .ok ((), next) ↔ Trail.deleteRepOf node.dataKey
      (fs.putNode id { node with dataKey := some key, editKey := none }) = .ok ((), next) := by
  simp only [Trail.finalizeEdits, bind_ok, Trail.getNodeRevision_ok, ensure_ok]
  constructor
  · rintro ⟨_, _, ⟨found, rfl⟩, -, _, ⟨-, rfl⟩, ran⟩
    rw [editing.found] at found
    cases found
    simp only [bind_ok, Trail.putNodeRevision_ok] at ran
    obtain ⟨-, _, ⟨-, rfl⟩, ran⟩ := ran
    exact ran
  · intro ran
    refine ⟨_, fs, ⟨editing.found, rfl⟩, (), fs, ⟨editing.mutable, rfl⟩, ?_⟩
    simp only [bind_ok, Trail.putNodeRevision_ok]
    exact ⟨(), _, ⟨rfl, rfl⟩, ran⟩

/-- After the edit, the file has its text, and an old mutable rep is gone. -/
theorem Editing.finalize (editing : Editing fs id node key text)
    (ran : Trail.finalizeEdits id fs = .ok ((), next)) : Finished next id node key text ∧
      (∀ old, node.dataKey = some old → fs.store.reps old ≠ none ∧
        ∀ rep, next.store.reps old = some rep → rep.mutable = false) ∧
      ∀ other, next.store.reps other = fs.store.reps other ∨ next.store.reps other = none := by
  have deleted := editing.finalize_ok.mp ran
  have placed : (fs.putNode id { node with dataKey := some key, editKey := none }).node id =
      some { node with dataKey := some key, editKey := none } := by
    rw [Filesystem.node_putNode, if_pos rfl]
  cases named : node.dataKey with
  | none =>
      rw [named] at deleted
      obtain ⟨-, rfl⟩ := pure_ok.mp deleted
      exact ⟨⟨editing.reps, placed, editing.isFile, editing.mutable, editing.holds⟩, by simp,
        fun _ => Or.inl rfl⟩
  | some old =>
      rw [named] at deleted
      obtain ⟨store, gone, rfl⟩ := changeStore_ok.mp deleted
      have distinct : old ≠ key := by
        rintro rfl
        exact editing.distinct named
      obtain ⟨reached, holds, left⟩ := editing.holds.delete editing.reps distinct gone
      obtain ⟨rep, stored, -, kept⟩ := editing.reps.invariant.deleteRepIfMutable_replaces gone
      refine ⟨⟨reached, placed, editing.isFile, editing.mutable, holds⟩, ?_, fun other => ?_⟩
      · rintro _ ⟨⟩
        exact ⟨by rw [stored]; simp, left⟩
      · rcases kept with ⟨-, rfl⟩ | ⟨-, replaces⟩
        · exact Or.inl rfl
        · by_cases same : other = old
          · subst same
            exact Or.inr replaces.this
          · exact Or.inl (replaces.other same)

/-- Nothing but a data key without a rep keeps an edit from being finished. -/
theorem Editing.finalizes (editing : Editing fs id node key text)
    (stored : ∀ old, node.dataKey = some old → fs.store.reps old ≠ none) :
    ∃ next, Trail.finalizeEdits id fs = .ok ((), next) := by
  suffices gone : ∃ next, Trail.deleteRepOf node.dataKey
      (fs.putNode id { node with dataKey := some key, editKey := none }) = .ok ((), next) by
    obtain ⟨next, ran⟩ := gone
    exact ⟨next, editing.finalize_ok.mpr ran⟩
  cases named : node.dataKey with
  | none => exact ⟨_, pure_ok.mpr ⟨rfl, rfl⟩⟩
  | some old =>
      obtain ⟨rep, found⟩ := Option.ne_none_iff_exists'.mp (stored old named)
      obtain ⟨store, deleted⟩ := editing.reps.deletes found
      exact ⟨_, changeStore_ok.mpr ⟨store, deleted, rfl⟩⟩

theorem Finished.reads (finished : Finished fs id node key text) : FileReads fs id text := by
  intro chunk depth positive
  obtain ⟨serves, sized⟩ := finished.holds.serves depth
  exact Trail.getContents_serves finished.found finished.isFile rfl serves sized positive

end Edits

/-- A transaction whose root directory got a file. -/
def rootWithFile : Filesystem × List Trail.Stream :=
  startedWith [.beginTxn 0, .make (.txn 0) [97] .file]

theorem rootWithFile_reachable : FsReachable rootWithFile.1 rootWithFile.2 :=
  startedWith_reachable (by simp [FsOp.Allowed])

end Subversion.Fs
