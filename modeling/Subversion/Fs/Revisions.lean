/-
This file shows that only a commit adds a revision, on top of the root that its transaction is based on.
-/

import Subversion.Fs.CommitLoop
import Subversion.Fs.StoreRuns

namespace Subversion.Fs.Trail

open Delta Transactions

variable {fs next : Filesystem}

theorem youngestRev_ok {rev : Nat} :
    youngestRev fs = .ok (rev, next) ↔ fs.revisions.length = rev + 1 ∧ next = fs := by
  unfold youngestRev
  cases fs.revisions with
  | nil => simp
  | cons first rest =>
      simp only [Except.ok.injEq, Prod.mk.injEq, List.length_cons, Nat.add_right_cancel_iff]
      exact and_congr_right fun _ => eq_comm

theorem revGetRoot_ok {rev : Nat} {root : NodeId} (ran : revGetRoot rev fs = .ok (root, next)) :
    fs.revisions[rev]? = some root ∧ next = fs := by
  refine ⟨?_, reads_revGetRoot rev fs root next ran⟩
  unfold revGetRoot at ran
  split at ran
  · cases ran
  · next found =>
      split at ran
      · cases ran
        exact found
      · cases ran

theorem getTxn_ok {txn : Nat} {record : Txn} (ran : getTxn txn fs = .ok (record, next)) :
    fs.txns.lookup txn = some record ∧ next = fs := by
  refine ⟨?_, reads_getTxn txn fs record next ran⟩
  unfold getTxn at ran
  split at ran
  · next found =>
      split at ran
      · cases ran
        exact found
      · cases ran
  · cases ran

section Kept

/-- The list of revisions. -/
def SameRevisions (revisions : List NodeId) (fs : Filesystem) : Prop := fs.revisions = revisions

variable {revisions : List NodeId}

theorem sameRevisions_robust : Robust (SameRevisions revisions) where
  nodes _ _ holds := holds
  txns _ _ _ holds := holds
  store _ _ _ _ holds _ _ := holds

theorem keepsRevisions_changeStore (change : Store → Except SvnError Store) :
    Keeps (SameRevisions revisions) (changeStore change) := by
  intro fs holds _ _ ran
  obtain ⟨store, -, rfl⟩ := changeStore_ok.mp ran
  exact holds

theorem keepsRevisions_deltify (depth : Nat) (target source : NodeId) (propsOnly : Bool) :
    Keeps (SameRevisions revisions) (deltify depth target source propsOnly) := by
  intro fs holds value next ran
  exact deltify_keeps (fun _ _ _ _ _ _ _ _ => keepsRevisions_changeStore _) holds ran

theorem keepsRevisions_undeltifyRepOf (depth : Nat) (key : Option Nat) :
    Keeps (SameRevisions revisions) (undeltifyRepOf depth key) := by
  unfold undeltifyRepOf
  split
  · exact keeps_pure _
  · exact keepsRevisions_changeStore _

theorem keepsRevisions_deltifyById (depth : Nat) (target : NodeId) (isDir : Bool) :
    Keeps (SameRevisions revisions) (deltifyById depth target isDir) := by
  apply reads_get.keeps.bind
  intro fs
  split
  · exact keepsRevisions_deltify depth _ _ _
  · exact keepsRevisions_deltify depth _ _ _
  · exact keeps_pure _

theorem keepsRevisions_deltifyUndeltify (order : HashOrder) (depth : Nat) (doDeltify recurse : Bool)
    (fuel : Nat) :
    ∀ id : NodeId, Keeps (SameRevisions revisions)
      (deltifyUndeltify order depth doDeltify recurse fuel id) := by
  induction fuel with
  | zero => exact fun _ => (reads_fail _).keeps
  | succ fuel ih =>
      intro id fs holds value next ran
      obtain ⟨node, _, got, rest⟩ := bind_ok.mp ran
      obtain ⟨-, rfl⟩ := getNodeRevision_ok.mp got
      have last : Keeps (SameRevisions revisions) (if doDeltify then
          deltifyById depth id (node.kind = .dir) else undeltify depth id) := by
        split
        · exact keepsRevisions_deltifyById depth id _
        · exact (reads_getNodeRevision id).keeps.bind fun _ =>
            (keepsRevisions_undeltifyRepOf depth _).bind fun _ => keepsRevisions_undeltifyRepOf depth _
      split at rest
      · refine Keeps.bind (reads_dirEntriesHash depth id).keeps (fun entries => ?_) _ holds value next rest
        refine Keeps.bind (keeps_forM fun entry _ => ?_) fun _ => last
        exact (reads_readStore _).keeps.bind ih
      · exact last _ holds value next rest

theorem keepsRevisions_immutableRepOf (key : Option Nat) :
    Keeps (SameRevisions revisions) (immutableRepOf key) := by
  unfold immutableRepOf
  split
  · exact keeps_pure _
  · exact keepsRevisions_changeStore _

theorem keepsRevisions_makeNodeImmutable (id : NodeId) (rev : Nat) :
    Keeps (SameRevisions revisions) (makeNodeImmutable id rev) := by
  apply (reads_getNodeRevision id).keeps.bind
  intro node
  split
  · exact keeps_pure _
  · apply (reads_ensure _ _).keeps.bind
    intro _
    apply (keepsRevisions_immutableRepOf _).bind
    intro _
    apply (keepsRevisions_immutableRepOf _).bind
    intro _
    exact holding_putNodeRevision sameRevisions_robust id _

theorem keepsRevisions_stableNode (depth : Nat) (id : NodeId) :
    Keeps (SameRevisions revisions) (stableNode depth id) := by
  apply (reads_getNodeRevision id).keeps.bind
  intro node
  split
  · exact keeps_pure _
  · exact keepsRevisions_deltify depth _ id _

theorem keepsRevisions_stabilizeNode (depth rev fuel : Nat) :
    ∀ id : NodeId, Keeps (SameRevisions revisions) (stabilizeNode depth rev fuel id) := by
  induction fuel with
  | zero => exact fun _ => (reads_fail _).keeps
  | succ fuel ih =>
      intro id
      apply (reads_getNodeRevision id).keeps.bind
      intro node
      have last : Keeps (SameRevisions revisions) (do
          makeNodeImmutable id rev
          stableNode depth id : Trail Unit) :=
        (keepsRevisions_makeNodeImmutable id rev).bind fun _ => keepsRevisions_stableNode depth id
      split
      · exact keeps_pure _
      · split
        · apply (reads_dirEntriesSkel depth id).keeps.bind
          intro entries
          refine Keeps.bind (keeps_forM fun entry _ => ?_) fun _ => last
          exact (reads_readStore _).keeps.bind ih
        · exact last

/-- No other trail adds a revision. -/
theorem keepsRevisions_runFsOp (order : HashOrder) (depth : Nat) {op : FsOp}
    (other : ∀ txn, op ≠ .commitTxn txn) : Keeps (SameRevisions revisions) (runFsOp order depth op) := by
  by_cases deltifies : op.Deltifies
  · cases op with
    | commitTxn txn => exact absurd rfl (other txn)
    | deltify rev path doDeltify recursive =>
        have body : Keeps (SameRevisions revisions)
            (txnBodyDeltify order depth rev path doDeltify recursive) := by
          apply (reads_getDag depth _ path).keeps.bind
          intro id
          exact keepsRevisions_deltifyUndeltify order depth doDeltify recursive depth id
        exact body.bind fun _ => keeps_pure _
    | _ => cases deltifies
  · exact holding_runFsOp sameRevisions_robust order depth deltifies

end Kept

/-- The root of the transaction is appended. -/
theorem commitTxn_revisions {depth txn rev : Nat} {record : Txn}
    (found : fs.txns.lookup txn = some record) (ran : commitTxn depth txn fs = .ok (rev, next)) :
    rev = fs.revisions.length ∧ next.revisions = fs.revisions ++ [record.root] := by
  simp only [commitTxn, bind_ok] at ran
  obtain ⟨same, _, isRecord, rootNode, _, isRoot, number, between, put, done, stable, stabilized, gone, after,
    deleted, isRev⟩ := ran
  obtain ⟨again, rfl⟩ := getTxn_ok isRecord
  obtain ⟨-, rfl⟩ := getNodeRevision_ok.mp isRoot
  obtain rfl := Option.some.inj (again.symm.trans found)
  obtain ⟨rfl, rfl⟩ := pure_ok.mp isRev
  cases put
  refine ⟨rfl, ?_⟩
  have kept := keepsRevisions_stabilizeNode depth _ depth same.root _ rfl _ _ stabilized
  exact holding_deleteTxn sameRevisions_robust txn stable kept _ _ deleted

/-- A successful commit adds one revision. Its transaction was based on the youngest one. -/
theorem txnBodyCommit_revisions {depth txn rev : Nat} (ran : txnBodyCommit depth txn fs = .ok (rev, next)) :
    ∃ record, fs.txns.lookup txn = some record ∧ fs.revisions.getLast? = some record.base ∧
      rev = fs.revisions.length ∧ next.revisions = fs.revisions ++ [record.root] := by
  simp only [txnBodyCommit, bind_ok, ensure_ok] at ran
  obtain ⟨youngest, _, isYoungest, root, _, isRoot, record, _, isRecord, baseNode, _, isBase, -, _,
    ⟨same, rfl⟩, committed⟩ := ran
  obtain ⟨length, rfl⟩ := youngestRev_ok.mp isYoungest
  obtain ⟨last, rfl⟩ := revGetRoot_ok isRoot
  obtain ⟨found, rfl⟩ := getTxn_ok isRecord
  obtain ⟨-, rfl⟩ := getNodeRevision_ok.mp isBase
  refine ⟨record, found, ?_, commitTxn_revisions found committed⟩
  rw [List.getLast?_eq_getElem?, length, Nat.add_sub_cancel, last, same]

end Subversion.Fs.Trail
