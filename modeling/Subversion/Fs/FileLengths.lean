/-
This file shows for which files the reported length is the number of bytes that can be read.
-/

import Subversion.Fs.Edits
import Subversion.Fs.Legibility
import Subversion.Fs.StoreRuns

namespace Subversion.Fs

open Transactions

/-- The length of the file and its contents can be read and agree. A recursion that is deep enough is
not cut off. -/
def LengthAgrees (fs : Filesystem) (id : NodeId) : Prop :=
  ∃ text, Trail.fileLength id fs = .ok (text.length, fs) ∧
    ∃ enough, ∀ depth chunk, enough ≤ depth → 0 < chunk →
      Trail.getContents chunk depth id fs = .ok (text, fs)

/-- A run whose deltifications are careful: a commit or a deltification takes no mutable rep as a
delta base and closes no cycle of bases. -/
inductive CarefulRun : Filesystem → List Trail.Stream → Prop where
  | start (path : String) : CarefulRun (Trail.dagInitFs path) []
  | step {fs next : Filesystem} {streams opened : List Trail.Stream} {order : Trail.HashOrder}
      {depth : Nat} {op : FsOp} (earlier : CarefulRun fs streams) (allowed : op.Allowed streams)
      (ran : Trail.runFsOp order depth op fs = .ok (opened, next))
      (careful : op.Deltifies → Relation.ReflTransGen (AllowedStep Careful) fs.store next.store) :
      CarefulRun next (opened ++ streams)

/-- The reps were made by operations on them, and all are legible. -/
structure LegibleStore (store : Store) : Prop where
  reachable : RepsReachable store
  legible : AllLegible store

section Runs

variable {store next : Store} {fs : Filesystem} {streams : List Trail.Stream}

theorem LegibleStore.step (holds : LegibleStore store) {depth : Nat} {op : RepOp}
    (careful : Careful store op) (ran : runRepOp store depth op = .ok next) : LegibleStore next :=
  ⟨holds.reachable.step ran, holds.legible.step holds.reachable.invariant careful ran⟩

theorem LegibleStore.lasts : Trail.Lasts LegibleStore := by
  intro store next depth op holds other ran
  refine holds.step ?_ ran
  cases op with
  | deltify target source => exact absurd rfl (other target source)
  | _ => trivial

theorem LegibleStore.run (holds : LegibleStore store)
    (run : Relation.ReflTransGen (AllowedStep Careful) store next) : LegibleStore next := by
  induction run with
  | refl => exact holds
  | tail _ step ih =>
      obtain ⟨depth, op, careful, ran⟩ := step
      exact ih.step careful ran

/-- In a careful run, every rep stays legible. -/
theorem CarefulRun.legible (run : CarefulRun fs streams) : LegibleStore fs.store := by
  induction run with
  | start path =>
      refine ⟨RepsReachable.empty, ?_⟩
      rintro key rep ⟨⟩
  | @step fs next streams opened order depth op earlier allowed ran careful ih =>
      by_cases deltifies : op.Deltifies
      · exact ih.run (careful deltifies)
      · exact holding_runFsOp LegibleStore.lasts.robust order depth deltifies fs ih opened next ran

theorem CarefulRun.reachable (run : CarefulRun fs streams) : FsReachable fs streams := by
  induction run with
  | start path => exact .start path
  | step earlier allowed ran careful ih => exact ih.step allowed ran

theorem CarefulRun.attempt (order : Trail.HashOrder) (depth : Nat)
    {state : Filesystem × List Trail.Stream} (run : CarefulRun state.1 state.2) (op : FsOp)
    (allowed : op.Allowed state.2) (other : ¬ op.Deltifies) :
    CarefulRun (Trail.attempt order depth state op).1 (Trail.attempt order depth state op).2 := by
  rw [Trail.attempt]
  split
  · exact run.step allowed ‹_› fun deltifies => absurd deltifies other
  · exact run

end Runs

/-- In every careful run, the length and the contents of a file agree unless the file has no data
or its data are gone. -/
theorem lengthAgrees_iff {fs : Filesystem} {streams : List Trail.Stream}
    (run : CarefulRun fs streams) {id : NodeId} {node : NodeRev} (found : fs.node id = some node)
    (isFile : node.kind = .file) :
    LengthAgrees fs id ↔ ∃ key, node.dataKey = some key ∧ fs.store.reps key ≠ none := by
  obtain ⟨reachable, legible⟩ := run.legible
  constructor
  · rintro ⟨text, sized, -⟩
    obtain ⟨other, key, isOther, -, named, size, -⟩ := Trail.fileLength_ok.mp sized
    rw [found] at isOther
    cases isOther
    refine ⟨key, named, fun missing => ?_⟩
    simp only [repContentsSize, readRep, missing] at size
    cases size
  · rintro ⟨key, named, present⟩
    obtain ⟨rep, isRep⟩ := Option.ne_none_iff_exists'.mp present
    obtain ⟨text, isText⟩ := legible key rep isRep
    obtain ⟨⟨enough, serves⟩, sized⟩ := isText.serves
    refine ⟨text, Trail.fileLength_ok.mpr ⟨node, key, found, isFile, named, sized, rfl⟩, enough + 1, ?_⟩
    intro depth chunk deep positive
    exact Trail.getContents_serves found isFile named (reachable.invariant.serves_mono deep serves)
      sized positive

/-- The file of the root directory was given one byte. -/
def rootWithText : Filesystem × List Trail.Stream :=
  startedWith [.beginTxn 0, .make (.txn 0) [97] .file, .applyTextdelta (.txn 0) [97],
    .writeContents ⟨[1, 1], 1⟩ [7], .finalizeEdits ⟨[1, 1], 1⟩]

theorem rootWithText_careful : CarefulRun rootWithText.1 rootWithText.2 := by
  unfold rootWithText startedWith
  rw [List.foldl_cons, List.foldl_cons, List.foldl_cons, List.foldl_cons, List.foldl_cons, List.foldl_nil]
  have opened : (⟨[1, 1], 1⟩ : Trail.Stream) ∈ (startedWith [.beginTxn 0, .make (.txn 0) [97] .file,
      .applyTextdelta (.txn 0) [97]]).2 := by decide +kernel
  unfold startedWith at opened
  rw [List.foldl_cons, List.foldl_cons, List.foldl_cons, List.foldl_nil] at opened
  have written : (⟨[1, 1], 1⟩ : Trail.Stream) ∈ (startedWith [.beginTxn 0, .make (.txn 0) [97] .file,
      .applyTextdelta (.txn 0) [97], .writeContents ⟨[1, 1], 1⟩ [7]]).2 := by decide +kernel
  unfold startedWith at written
  rw [List.foldl_cons, List.foldl_cons, List.foldl_cons, List.foldl_cons, List.foldl_nil] at written
  apply CarefulRun.attempt
  · apply CarefulRun.attempt
    · apply CarefulRun.attempt
      · apply CarefulRun.attempt
        · apply CarefulRun.attempt
          · exact CarefulRun.start "db"
          · trivial
          · exact id
        · trivial
        · exact id
      · trivial
      · exact id
    · exact opened
    · exact id
  · exact written
  · exact id

/-- The one byte is there. -/
theorem lengthAgrees_iff_one_byte : LengthAgrees rootWithText.1 [1, 1] := by
  have found : rootWithText.1.node [1, 1] = some ⟨.file, none, none, none, some 1, none⟩ := by
    decide +kernel
  exact (lengthAgrees_iff rootWithText_careful found rfl).mpr ⟨1, rfl, by decide +kernel⟩

/-- A file that was just made has contents, but its length cannot be read. -/
theorem new_file_has_no_length : FsReachable rootWithFile.1 rootWithFile.2 ∧
    rootWithFile.1.node [1, 1] = some ⟨.file, none, none, none, none, none⟩ ∧
    (∀ chunk depth, Trail.getContents chunk depth [1, 1] rootWithFile.1 = .ok ([], rootWithFile.1)) ∧
    Trail.fileLength [1, 1] rootWithFile.1 =
      .error ⟨.fsNoSuchRepresentation, "svn_fs__read_rep: no such representation `'"⟩ := by
  have found : rootWithFile.1.node [1, 1] = some ⟨.file, none, none, none, none, none⟩ := by
    decide +kernel
  refine ⟨rootWithFile_reachable, found, ?_, ?_⟩
  · exact fun chunk depth => Trail.getContents_empty found rfl rfl chunk
  · have opened := Trail.getNodeRevision_ok.mpr ⟨found, rfl⟩
    rw [Trail.fileLength, bind_run opened]
    rfl

end Subversion.Fs
