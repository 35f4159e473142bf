/-
This file models a commit as a loop of separate trails, and clients whose trails interleave.
-/

import Subversion.Fs.Runs

namespace Subversion.Fs

/-- Where a call of `svn_fs_commit_txn` stands: before one of its trails, or at its end. -/
inductive CommitPoint where
  | youngestRev
  | revisionRoot (youngish : Nat)
  | getRoot (youngish : Nat) (root : NodeId)
  | merge (youngish : Nat) (root : NodeId)
  | commit (youngish : Nat)
  | youngestAgain (youngish : Nat) (error : SvnError)
  | returned (result : Except SvnError Nat)

namespace Trail

/-- The call goes on after the trail. A trail that fails is rolled back. -/
def retryTxn {A : Type} (trail : Trail A) (next : A → CommitPoint) (failed : SvnError → CommitPoint)
    (fs : Filesystem) : CommitPoint × Filesystem :=
  match trail fs with
  | .ok (value, after) => (next value, after)
  | .error error => (failed error, fs)

/-- One trail of the loop. The merge is tried against what was the youngest revision, and the loop
goes round again only when the transaction is out of date since another revision was committed. -/
def svnFsCommitTxn (order : HashOrder) (depth txn : Nat) :
    CommitPoint → Filesystem → CommitPoint × Filesystem
  | .youngestRev => retryTxn youngestRev .revisionRoot fun error => .returned (.error error)
  | .revisionRoot youngish =>
      retryTxn (rootNode (.revision youngish)) (.getRoot youngish) fun error => .returned (.error error)
  -- the directory of a revision root has been opened with it
  | .getRoot youngish root => retryTxn (pure root) (.merge youngish) fun error => .returned (.error error)
  | .merge youngish root =>
      retryTxn (txnBodyMerge order depth txn root none) (fun _ => .commit youngish)
        fun error => .returned (.error error)
  | .commit youngish =>
      retryTxn (txnBodyCommit depth txn) (fun rev => .returned (.ok rev)) fun error =>
        if error.code = .txnOutOfDate then .youngestAgain youngish error
        else .returned (.error error)
  | .youngestAgain youngish error =>
      retryTxn youngestRev
        (fun youngest => if youngest = youngish then .returned (.error error) else .youngestRev)
        fun error => .returned (.error error)
  | .returned result => fun fs => (.returned result, fs)

end Trail

/-- A call, with the numbers of the revisions that were added by its own trails. -/
structure CommitCall where
  txn : Nat
  point : CommitPoint
  created : List Nat

/-- The calls of all clients work on one filesystem. -/
structure Clients where
  fs : Filesystem
  streams : List Trail.Stream
  calls : List CommitCall

/-- The call of this number runs its next trail. -/
def Clients.advance (order : Trail.HashOrder) (depth index : Nat) (clients : Clients) : Clients :=
  match clients.calls[index]? with
  | none => clients
  | some call =>
      let (point, fs) := Trail.svnFsCommitTxn order depth call.txn call.point clients.fs
      let added := List.range' clients.fs.revisions.length
        (fs.revisions.length - clients.fs.revisions.length)
      { clients with
        fs := fs
        calls := clients.calls.set index ⟨call.txn, point, call.created ++ added⟩ }

/-- A client calls, a call goes on, or a client runs another trail. Revisions are only committed by
calls. -/
inductive ClientStep (clients : Clients) : Clients → Prop where
  | call (txn : Nat) : ClientStep clients
      { clients with calls := clients.calls ++ [⟨txn, .youngestRev, []⟩] }
  | advance (order : Trail.HashOrder) (depth index : Nat) :
      ClientStep clients (clients.advance order depth index)
  | edit {order : Trail.HashOrder} {depth : Nat} {op : FsOp} {opened : List Trail.Stream}
      {next : Filesystem} (other : ∀ txn, op ≠ .commitTxn txn) (allowed : op.Allowed clients.streams)
      (ran : Trail.runFsOp order depth op clients.fs = .ok (opened, next)) :
      ClientStep clients { clients with fs := next, streams := opened ++ clients.streams }

/-- Clients that started with a new filesystem. -/
def Clients.start (path : String) : Clients := ⟨Trail.dagInitFs path, [], []⟩

def Clients.Reachable (clients : Clients) : Prop :=
  ∃ path, Relation.ReflTransGen ClientStep (Clients.start path) clients

end Subversion.Fs
