/-
This file models the runs of a filesystem, one trail after another.
-/

import Subversion.Fs.Tree

namespace Subversion.Fs

open Delta

/-- The operations that change a filesystem. The nodes of a merge were read in earlier trails. -/
inductive FsOp where
  | changeNodeProp (root : Root) (path name : Bytes) (value : Option Bytes)
  | make (root : Root) (path : Bytes) (kind : NodeKind)
  | delete (root : Root) (path : Bytes) (deleteTree : Bool)
  | copy (fromRoot : Root) (fromPath : Bytes) (toRoot : Root) (toPath : Bytes) (preserveHistory : Bool)
  | applyTextdelta (root : Root) (path : Bytes)
  | writeContents (stream : Trail.Stream) (bytes : Bytes)
  | finalizeEdits (stream : Trail.Stream)
  | beginTxn (rev : Nat)
  | merge (txn : Nat) (source : NodeId) (ancestor : Option NodeId)
  | commitTxn (txn : Nat)
  | abortTxn (txn : Nat)
  | deltify (rev : Nat) (path : Bytes) (doDeltify recursive : Bool)

namespace Trail

/-- The streams that an operation opens are returned. -/
def runFsOp (order : HashOrder) (depth : Nat) : FsOp → Trail (List Stream)
  | .changeNodeProp root path name value => do
      txnBodyChangeNodeProp depth root path name value
      pure []
  | .make root path kind => do
      txnBodyMake depth root path kind
      pure []
  | .delete root path deleteTree => do
      txnBodyDelete depth root path deleteTree
      pure []
  | .copy fromRoot fromPath toRoot toPath preserveHistory => do
      txnBodyCopy depth fromRoot fromPath toRoot toPath preserveHistory
      pure []
  | .applyTextdelta root path => do
      let stream ← txnBodyApplyTextdelta depth root path
      pure [stream]
  | .writeContents stream bytes => do
      changeStore fun store => repWrite store stream.key bytes
      pure []
  | .finalizeEdits stream => do
      Trail.finalizeEdits stream.node
      pure []
  | .beginTxn rev => do
      let _ ← txnBodyBeginTxn rev
      pure []
  | .merge txn source ancestor => do
      txnBodyMerge order depth txn source ancestor
      pure []
  | .commitTxn txn => do
      let _ ← txnBodyCommit depth txn
      pure []
  | .abortTxn txn => do
      txnBodyAbortTxn depth txn
      pure []
  | .deltify rev path doDeltify recursive => do
      txnBodyDeltify order depth rev path doDeltify recursive
      pure []

end Trail

/-- Streams are used after they have been opened. -/
def FsOp.Allowed (streams : List Trail.Stream) : FsOp → Prop
  | .writeContents stream _ => stream ∈ streams
  | .finalizeEdits stream => stream ∈ streams
  | _ => True

/-- A filesystem with the streams that have been opened on its files. A failed trail is rolled back,
so only successful ones count. -/
inductive FsReachable : Filesystem → List Trail.Stream → Prop where
  | start (path : String) : FsReachable (Trail.dagInitFs path) []
  | step {fs next : Filesystem} {streams opened : List Trail.Stream} {order : Trail.HashOrder}
      {depth : Nat} {op : FsOp} (earlier : FsReachable fs streams) (allowed : op.Allowed streams)
      (ran : Trail.runFsOp order depth op fs = .ok (opened, next)) :
      FsReachable next (opened ++ streams)

namespace Trail

/-- A failed operation leaves all as it was. -/
def attempt (order : HashOrder) (depth : Nat) (state : Filesystem × List Stream) (op : FsOp) :
    Filesystem × List Stream :=
  match runFsOp order depth op state.1 with
  | .ok (opened, next) => (next, opened ++ state.2)
  | .error _ => state

end Trail

theorem FsReachable.attempt (order : Trail.HashOrder) (depth : Nat)
    {state : Filesystem × List Trail.Stream} (reachable : FsReachable state.1 state.2) (op : FsOp)
    (allowed : op.Allowed state.2) :
    FsReachable (Trail.attempt order depth state op).1 (Trail.attempt order depth state op).2 := by
  rw [Trail.attempt]
  split
  · next opened next ran => exact reachable.step allowed ran
  · exact reachable

/-- Operations that use no stream are always allowed. -/
theorem FsReachable.attempts (order : Trail.HashOrder) (depth : Nat) (ops : List FsOp)
    (allowed : ∀ op ∈ ops, ∀ streams, op.Allowed streams) {state : Filesystem × List Trail.Stream}
    (reachable : FsReachable state.1 state.2) :
    FsReachable (ops.foldl (Trail.attempt order depth) state).1
      (ops.foldl (Trail.attempt order depth) state).2 := by
  induction ops generalizing state with
  | nil => exact reachable
  | cons op ops ih =>
      exact ih (fun op member => allowed op (.tail _ member))
        (reachable.attempt order depth op (allowed op List.mem_cons_self state.2))

/-- A new filesystem after these operations. -/
def startedWith (ops : List FsOp) : Filesystem × List Trail.Stream :=
  ops.foldl (Trail.attempt ⟨id, fun _ => List.Perm.refl _⟩ 9) (Trail.dagInitFs "db", [])

theorem startedWith_reachable {ops : List FsOp} (allowed : ∀ op ∈ ops, ∀ streams, op.Allowed streams) :
    FsReachable (startedWith ops).1 (startedWith ops).2 := by
  unfold startedWith
  exact FsReachable.attempts _ 9 ops allowed (FsReachable.start "db")

end Subversion.Fs
