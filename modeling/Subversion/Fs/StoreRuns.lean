/-
This file shows that a trail which deltifies nothing keeps what the operations on reps keep.
-/

import Subversion.Fs.RoleRuns

namespace Subversion.Fs.Trail

open Delta Transactions

/-- The property of the store lasts when an operation on reps is no deltification. -/
def Lasts (kept : Store → Prop) : Prop :=
  ∀ store next depth op, kept store → (∀ target source, op ≠ .deltify target source) →
    runRepOp store depth op = .ok next → kept next

/-- The store of the filesystem has the property. -/
def Holding (kept : Store → Prop) (fs : Filesystem) : Prop := kept fs.store

/-- The nodes and the transactions do not matter, nor do operations on reps but deltification. -/
structure Robust (kept : Filesystem → Prop) : Prop where
  nodes : ∀ fs nodes, kept fs → kept { fs with nodes := nodes }
  txns : ∀ fs txns nextTxn, kept fs → kept { fs with txns := txns, nextTxn := nextTxn }
  store : ∀ fs store depth op, kept fs → (∀ target source, op ≠ .deltify target source) →
    runRepOp fs.store depth op = .ok store → kept (fs.setStore store)

theorem Lasts.robust {kept : Store → Prop} (lasts : Lasts kept) : Robust (Holding kept) where
  nodes _ _ holds := holds
  txns _ _ _ holds := holds
  store fs store depth op holds other ran := lasts fs.store store depth op holds other ran

section Stores

variable {kept : Filesystem → Prop} (robust : Robust kept)
include robust

theorem holding_putNodeRevision (id : NodeId) (node : NodeRev) :
    Keeps kept (putNodeRevision id node) := by
  intro fs holds _ _ ran
  obtain ⟨-, rfl⟩ := putNodeRevision_ok.mp ran
  exact robust.nodes fs _ holds

theorem holding_createNode (node : NodeRev) : Keeps kept (createNode node) := by
  intro fs holds _ _ ran
  obtain ⟨-, -, -, rfl⟩ := createNode_ok.mp ran
  exact robust.nodes fs _ holds

theorem holding_createSuccessor (id : NodeId) (node : NodeRev) :
    Keeps kept (createSuccessor id node) := by
  intro fs holds _ _ ran
  obtain ⟨-, -, -, rfl⟩ := createSuccessor_ok.mp ran
  exact robust.nodes fs _ holds

theorem holding_deleteNodeRevision (id : NodeId) : Keeps kept (deleteNodeRevision id) := by
  intro fs holds _ _ ran
  obtain ⟨-, rfl⟩ := deleteNodeRevision_ok.mp ran
  exact robust.nodes fs _ holds

theorem holding_putTxn (txn : Nat) (record : Txn) : Keeps kept (putTxn txn record) := by
  intro fs holds _ _ ran
  cases ran
  exact robust.txns fs _ _ holds

theorem holding_setTxnRoot (txn : Nat) (root : NodeId) : Keeps kept (setTxnRoot txn root) := by
  apply (reads_getTxn txn).keeps.bind
  intro record
  split
  · exact keeps_pure _
  · exact holding_putTxn robust txn _

theorem holding_setTxnBase (txn : Nat) (base : NodeId) : Keeps kept (setTxnBase txn base) := by
  apply (reads_getTxn txn).keeps.bind
  intro record
  split
  · exact keeps_pure _
  · exact holding_putTxn robust txn _

theorem holding_createTxn (root : NodeId) : Keeps kept (createTxn root) := by
  intro fs holds _ _ ran
  unfold createTxn at ran
  split at ran
  · cases ran
  · cases ran
    exact robust.txns fs _ _ holds

theorem holding_deleteTxn (txn : Nat) : Keeps kept (deleteTxn txn) := by
  intro fs holds _ _ ran
  unfold deleteTxn at ran
  split at ran
  · cases ran
    exact robust.txns fs _ _ holds
  · cases ran

/-- One operation on reps, and no deltification. -/
theorem holding_repOp (depth : Nat) (op : RepOp) {change : Store → Except SvnError Store}
    (other : ∀ target source, op ≠ .deltify target source)
    (same : ∀ store, change store = runRepOp store depth op) :
    Keeps kept (changeStore change) := by
  intro fs holds value next ran
  obtain ⟨store, changed, rfl⟩ := changeStore_ok.mp ran
  exact robust.store fs store depth op holds other ((same fs.store).symm.trans changed)

theorem holding_getMutable (depth : Nat) (rep : Option Nat) :
    Keeps kept (withStore fun store => getMutableRep store depth rep) := by
  intro fs holds key next ran
  obtain ⟨store, got, rfl⟩ := withStore_ok.mp ran
  apply robust.store fs store depth (.getMutable rep) holds nofun
  rw [runRepOp, got]
  rfl

theorem holding_streamWrite (key : Nat) (bytes : Bytes) :
    Keeps kept (streamWrite key bytes) := by
  intro fs holds value next ran
  unfold streamWrite at ran
  split at ran
  · next store wrote =>
      cases ran
      exact robust.store fs store 0 (.write key bytes) holds nofun wrote
  · cases ran
    exact holds

theorem holding_clear (key : Nat) :
    Keeps kept (changeStore fun store => repContentsClear store key) :=
  holding_repOp robust 0 (.clear key) nofun fun _ => rfl

theorem holding_write (key : Nat) (bytes : Bytes) :
    Keeps kept (changeStore fun store => repWrite store key bytes) :=
  holding_repOp robust 0 (.write key bytes) nofun fun _ => rfl

theorem holding_deleteRepOf (key : Option Nat) : Keeps kept (deleteRepOf key) := by
  unfold deleteRepOf
  split
  · exact keeps_pure _
  · next key => exact holding_repOp robust 0 (.deleteIfMutable key) nofun fun _ => rfl

end Stores

section Nodes

variable {kept : Filesystem → Prop} (robust : Robust kept)
include robust

theorem holding_rewriteEntries (depth key : Nat) (change : List Entry → List Entry) :
    Keeps kept (rewriteEntries depth key change) := by
  apply (reads_readStore _).keeps.bind
  intro entries
  exact (holding_clear robust key).bind fun _ => holding_streamWrite robust key _

theorem holding_mutableDataKey (depth : Nat) (id : NodeId) (node : NodeRev) :
    Keeps kept (mutableDataKey depth id node) := by
  apply (holding_getMutable robust depth node.dataKey).bind
  intro key
  split
  · exact keeps_pure _
  · exact (holding_putNodeRevision robust id _).bind fun _ => keeps_pure _

theorem holding_setEntryUnchecked (depth : Nat) (parent : NodeId) (name : Bytes) (id : NodeId) :
    Keeps kept (setEntryUnchecked depth parent name id) := by
  apply (reads_getNodeRevision parent).keeps.bind
  intro node
  apply (holding_mutableDataKey robust depth parent node).bind
  intro key
  split
  · exact (holding_streamWrite robust key _).bind fun _ => holding_rewriteEntries robust depth key _
  · exact holding_rewriteEntries robust depth key _

theorem holding_makeEntry (depth : Nat) (parent : NodeId) (name : Bytes) (kind : NodeKind) :
    Keeps kept (makeEntry depth parent name kind) := by
  apply (reads_ensure _ _).keeps.bind
  intro _
  apply (reads_getNodeRevision parent).keeps.bind
  intro node
  apply (reads_ensure _ _).keeps.bind
  intro _
  apply (reads_ensure _ _).keeps.bind
  intro _
  apply (reads_dirEntriesSkel depth parent).keeps.bind
  intro entries
  apply (reads_ensure _ _).keeps.bind
  intro _
  apply (holding_createNode robust _).bind
  intro id
  exact (holding_setEntryUnchecked robust depth parent name id).bind fun _ => keeps_pure id

theorem holding_setEntry (depth : Nat) (parent : NodeId) (name : Bytes) (id : NodeId) :
    Keeps kept (setEntry depth parent name id) := by
  apply (reads_getNodeRevision parent).keeps.bind
  intro node
  apply (reads_ensure _ _).keeps.bind
  intro _
  exact (reads_ensure _ _).keeps.bind fun _ => holding_setEntryUnchecked robust depth parent name id

theorem holding_setProplist (depth : Nat) (id : NodeId) (proplist : Skel) :
    Keeps kept (setProplist depth id proplist) := by
  apply (reads_getNodeRevision id).keeps.bind
  intro node
  apply (reads_ensure _ _).keeps.bind
  intro _
  apply (reads_ensure _ _).keeps.bind
  intro _
  apply (holding_getMutable robust depth node.propKey).bind
  intro key
  have written : Keeps kept (do
      changeStore fun store => repContentsClear store key
      changeStore fun store => repWrite store key (unparseSkel proplist) : Trail Unit) :=
    (holding_clear robust key).bind fun _ => holding_write robust key _
  split
  · exact written
  · exact (holding_putNodeRevision robust id _).bind fun _ => written

theorem holding_cloneChild (depth : Nat) (parent : NodeId) (name : Bytes) :
    Keeps kept (cloneChild depth parent name) := by
  apply (reads_getNodeRevision parent).keeps.bind
  intro node
  apply (reads_ensure _ _).keeps.bind
  intro _
  apply (reads_ensure _ _).keeps.bind
  intro _
  apply (reads_openChild depth parent name).keeps.bind
  intro current
  apply (reads_getNodeRevision current).keeps.bind
  intro child
  split
  · exact keeps_pure _
  · apply (holding_createSuccessor robust current _).bind
    intro id
    exact (holding_setEntryUnchecked robust depth parent name id).bind fun _ => keeps_pure id

theorem holding_cloneRoot (txn : Nat) : Keeps kept (cloneRoot txn) := by
  apply (reads_getTxn txn).keeps.bind
  intro record
  split
  · apply (reads_getNodeRevision _).keeps.bind
    intro node
    apply (holding_createSuccessor robust _ _).bind
    intro id
    exact (holding_setTxnRoot robust txn id).bind fun _ => keeps_pure id
  · exact (reads_getNodeRevision _).keeps.bind fun _ => keeps_pure _

theorem holding_deleteIfMutable (depth fuel : Nat) :
    ∀ id : NodeId, Keeps kept (deleteIfMutable depth fuel id) := by
  induction fuel with
  | zero => exact fun _ => (reads_fail _).keeps
  | succ fuel ih =>
      intro id
      apply (reads_getNodeRevision id).keeps.bind
      intro node
      have clean : Keeps kept (do
          deleteRepOf node.propKey
          deleteRepOf node.dataKey
          deleteRepOf node.editKey
          deleteNodeRevision id : Trail Unit) :=
        (holding_deleteRepOf robust _).bind fun _ => (holding_deleteRepOf robust _).bind fun _ =>
          (holding_deleteRepOf robust _).bind fun _ => holding_deleteNodeRevision robust id
      split
      · exact keeps_pure _
      · split
        · apply (reads_dirEntriesSkel depth id).keeps.bind
          intro entries
          refine Keeps.bind (keeps_forM fun entry _ => ?_) fun _ => clean
          exact (reads_readStore _).keeps.bind ih
        · exact clean

theorem holding_deleteEntry (depth : Nat) (parent : NodeId) (name : Bytes) (requireEmpty : Bool) :
    Keeps kept (deleteEntry depth parent name requireEmpty) := by
  apply (reads_getNodeRevision parent).keeps.bind
  intro node
  apply (reads_ensure _ _).keeps.bind
  intro _
  apply (reads_ensure _ _).keeps.bind
  intro _
  apply (reads_ensure _ _).keeps.bind
  intro _
  apply (reads_ensure _ _).keeps.bind
  intro _
  apply (holding_mutableDataKey robust depth parent node).bind
  intro key
  apply (reads_readStore _).keeps.bind
  intro entries
  split
  · exact (reads_fail _).keeps
  · apply (reads_readStore _).keeps.bind
    intro id
    apply (reads_getNodeRevision id).keeps.bind
    intro child
    have removed : Keeps kept (do
        deleteIfMutable depth depth id
        changeStore fun store => repContentsClear store key
        changeStore fun store => repWrite store key (unparseEntries (loseEntry entries name)) :
          Trail Unit) :=
      (holding_deleteIfMutable robust depth depth id).bind fun _ =>
        (holding_clear robust key).bind fun _ => holding_write robust key _
    split
    · apply (reads_dirEntriesSkel depth id).keeps.bind
      intro inside
      exact (reads_ensure _ _).keeps.bind fun _ => removed
    · exact removed

theorem holding_getEditStream (depth : Nat) (id : NodeId) :
    Keeps kept (getEditStream depth id) := by
  apply (reads_getNodeRevision id).keeps.bind
  intro node
  apply (reads_ensure _ _).keeps.bind
  intro _
  apply (reads_ensure _ _).keeps.bind
  intro _
  apply (holding_deleteRepOf robust node.editKey).bind
  intro _
  apply (holding_getMutable robust depth none).bind
  intro key
  apply reads_get.keeps.bind
  intro fs
  apply (reads_ensure _ _).keeps.bind
  intro _
  exact (holding_putNodeRevision robust id _).bind fun _ => keeps_pure key

theorem holding_finalizeEdits (id : NodeId) : Keeps kept (finalizeEdits id) := by
  apply (reads_getNodeRevision id).keeps.bind
  intro node
  apply (reads_ensure _ _).keeps.bind
  intro _
  split
  · exact keeps_pure _
  · exact (holding_putNodeRevision robust id _).bind fun _ => holding_deleteRepOf robust node.dataKey

theorem holding_copy (depth : Nat) (toNode : NodeId) (name : Bytes) (fromNode : NodeId)
    (preserveHistory : Bool) (fromRev : Nat) (fromPath : Bytes) :
    Keeps kept (copy depth toNode name fromNode preserveHistory fromRev fromPath) := by
  unfold copy
  split
  · apply (reads_getNodeRevision fromNode).keeps.bind
    intro node
    exact (holding_createNode robust _).bind fun id => holding_setEntry robust depth toNode name id
  · exact holding_setEntry robust depth toNode name fromNode

end Nodes

section Bodies

variable {kept : Filesystem → Prop} (robust : Robust kept)
include robust

theorem holding_mutableRootNode (root : Root) (errorPath : Bytes) :
    Keeps kept (mutableRootNode root errorPath) := by
  cases root with
  | txn txn => exact holding_cloneRoot robust txn
  | revision rev => exact (reads_get.bind fun _ => reads_fail _).keeps
  | id => exact (reads_get.bind fun _ => reads_fail _).keeps

theorem holding_makePathMutable (depth : Nat) (root : Root) (errorPath : Bytes) :
    ∀ parentPath : ParentPath, Keeps kept (makePathMutable depth root errorPath parentPath)
  | .root id => by
      apply (reads_getNodeRevision id).keeps.bind
      intro node
      split
      · exact keeps_pure _
      · exact holding_mutableRootNode robust root errorPath
  | .child none _ _ => (reads_fail _).keeps
  | .child (some id) entry parent => by
      apply (reads_getNodeRevision id).keeps.bind
      intro node
      split
      · exact keeps_pure _
      · exact (holding_makePathMutable depth root errorPath parent).bind
          fun parentId => holding_cloneChild robust depth parentId entry

theorem holding_txnBodyChangeNodeProp (depth : Nat) (root : Root) (path name : Bytes)
    (value : Option Bytes) : Keeps kept (txnBodyChangeNodeProp depth root path name value) := by
  apply (reads_ensureTxnRoot root).keeps.bind
  intro _
  apply (reads_openPath depth root path false).keeps.bind
  intro parentPath
  apply (holding_makePathMutable robust depth root path parentPath).bind
  intro id
  apply (reads_getProplist depth id).keeps.bind
  intro proplist
  exact (reads_readStore _).keeps.bind fun changed => holding_setProplist robust depth id changed

theorem holding_txnBodyMake (depth : Nat) (root : Root) (path : Bytes) (kind : NodeKind) :
    Keeps kept (txnBodyMake depth root path kind) := by
  have rest : Keeps kept (do
      let parentPath ← openPath depth root path true
      let fs ← get
      ensure (parentPath.node = none) (alreadyExists fs.nodes.path root path)
      let found ← parentOf parentPath
      let parentId ← makePathMutable depth root path found.1
      let _ ← makeEntry depth parentId found.2 kind : Trail Unit) := by
    apply (reads_openPath depth root path true).keeps.bind
    intro parentPath
    apply reads_get.keeps.bind
    intro fs
    apply (reads_ensure _ _).keeps.bind
    intro _
    apply (reads_parentOf parentPath).keeps.bind
    intro found
    apply (holding_makePathMutable robust depth root path found.1).bind
    intro parentId
    exact (holding_makeEntry robust depth parentId found.2 kind).bind fun _ => keeps_pure _
  unfold txnBodyMake
  split
  · exact (reads_ensureTxnRoot root).keeps.bind fun _ => rest
  · exact rest

theorem holding_txnBodyDelete (depth : Nat) (root : Root) (path : Bytes) (deleteTree : Bool) :
    Keeps kept (txnBodyDelete depth root path deleteTree) := by
  apply (reads_openPath depth root path false).keeps.bind
  intro parentPath
  apply (reads_ensureTxnRoot root).keeps.bind
  intro _
  split
  · exact (reads_fail _).keeps
  · next entry parent =>
      exact (holding_makePathMutable robust depth root path parent).bind
        fun parentId => holding_deleteEntry robust depth parentId entry _

theorem holding_txnBodyCopy (depth : Nat) (fromRoot : Root) (fromPath : Bytes) (toRoot : Root)
    (toPath : Bytes) (preserveHistory : Bool) :
    Keeps kept (txnBodyCopy depth fromRoot fromPath toRoot toPath preserveHistory) := by
  apply (reads_ensureTxnRoot toRoot).keeps.bind
  intro _
  split
  · next rev =>
      apply (reads_getDag depth _ fromPath).keeps.bind
      intro fromId
      apply (reads_openPath depth toRoot toPath true).keeps.bind
      intro parentPath
      apply (reads_parentOf parentPath).keeps.bind
      intro found
      apply (holding_makePathMutable robust depth toRoot toPath found.1).bind
      intro parentId
      exact holding_copy robust depth parentId found.2 fromId preserveHistory rev fromPath
  · exact (reads_fail _).keeps

theorem holding_txnBodyApplyTextdelta (depth : Nat) (root : Root) (path : Bytes) :
    Keeps kept (txnBodyApplyTextdelta depth root path) := by
  apply (reads_openPath depth root path false).keeps.bind
  intro parentPath
  apply (holding_makePathMutable robust depth root path parentPath).bind
  intro id
  apply (reads_getNodeRevision id).keeps.bind
  intro node
  apply (reads_ensure _ _).keeps.bind
  intro _
  exact (holding_getEditStream robust depth id).bind fun _ => keeps_pure _

theorem holding_moveToSuccessor (source target : NodeId) : Keeps kept (moveToSuccessor source target) := by
  intro fs holds _ next ran
  simp only [moveToSuccessor, newSuccessorId, bind_ok, chooseId_ok, getNodeRevision_ok,
    putNodeRevision_ok, pure_ok] at ran
  obtain ⟨id, _, ⟨-, -, rfl⟩, node, _, ⟨-, rfl⟩, -, _, ⟨-, rfl⟩, -, rfl⟩ := ran
  exact robust.nodes _ _ holds

theorem holding_mergeEntry {recurse : Bytes → NodeId → NodeId → NodeId → Trail Unit}
    (keeps : ∀ path target source ancestor, Keeps kept (recurse path target source ancestor))
    (depth : Nat) (targetPath : Bytes) (target : NodeId) (name : Bytes) (ancestor : NodeId)
    (source current : Option NodeId) :
    Keeps kept (mergeEntry recurse depth targetPath target name ancestor source current) := by
  unfold mergeEntry
  split
  · next source current =>
      split
      · exact keeps_pure _
      · split
        · exact (reads_ensureMutable target targetPath).keeps.bind
            fun _ => holding_setEntry robust depth target name source
        · split
          · exact keeps_pure _
          · apply (reads_getNodeRevision source).keeps.bind
            intro sourceNode
            apply (reads_getNodeRevision current).keeps.bind
            intro currentNode
            apply (reads_getNodeRevision ancestor).keeps.bind
            intro ancestorNode
            apply (reads_ensure _ _).keeps.bind
            intro _
            apply (keeps _ _ _ _).bind
            intro _
            split
            · exact (holding_moveToSuccessor robust source current).bind fun successor =>
                (holding_setEntry robust depth target name successor).bind fun _ =>
                  holding_deleteNodeRevision robust current
            · exact keeps_pure _
  · exact (reads_ensure _ _).keeps
  · split
    · exact (reads_ensureMutable target targetPath).keeps.bind
        fun _ => holding_deleteEntry robust depth target name false
    · exact (reads_ensure _ _).keeps
  · exact keeps_pure _

theorem holding_mergeAddition (depth : Nat) (targetPath : Bytes) (target : NodeId) (name : Bytes)
    (source : NodeId) (current : Option NodeId) :
    Keeps kept (mergeAddition depth targetPath target name source current) := by
  unfold mergeAddition
  split
  · exact (reads_ensureMutable target targetPath).keeps.bind
      fun _ => holding_setEntry robust depth target name source
  · exact (reads_ensure _ _).keeps

theorem holding_merge (order : HashOrder) (depth fuel : Nat) :
    ∀ (targetPath : Bytes) (target source ancestor : NodeId),
      Keeps kept (merge order depth fuel targetPath target source ancestor) := by
  induction fuel with
  | zero => exact fun _ _ _ _ => (reads_fail _).keeps
  | succ fuel ih =>
      intro targetPath target source ancestor
      apply (reads_ensure _ _).keeps.bind
      intro _
      split
      · exact keeps_pure _
      · apply (reads_getNodeRevision source).keeps.bind
        intro sourceNode
        apply (reads_getNodeRevision target).keeps.bind
        intro targetNode
        apply (reads_getNodeRevision ancestor).keeps.bind
        intro ancestorNode
        apply (reads_ensure _ _).keeps.bind
        intro _
        apply (reads_ensure _ _).keeps.bind
        intro _
        apply (reads_hashIds order depth source).keeps.bind
        intro sources
        apply (reads_hashIds order depth target).keeps.bind
        intro targets
        apply (reads_hashIds order depth ancestor).keeps.bind
        intro ancestors
        apply Keeps.bind
        · exact keeps_forM fun entry _ =>
            holding_mergeEntry robust ih depth targetPath target entry.1 entry.2 _ _
        · intro _
          exact keeps_forM fun entry _ =>
            holding_mergeAddition robust depth targetPath target entry.1 entry.2 _

theorem holding_txnBodyMerge (order : HashOrder) (depth txn : Nat) (source : NodeId)
    (ancestor : Option NodeId) :
    Keeps kept (txnBodyMerge order depth txn source ancestor) := by
  apply (reads_getTxn txn).keeps.bind
  intro record
  apply (reads_getNodeRevision _).keeps.bind
  intro root
  have merged (ancestor : NodeId) : Keeps kept (do
      if ancestor = record.root then
        setTxnBase txn source
        setTxnRoot txn source
      else
        merge order depth depth [] record.root source ancestor
        if rebases ancestor record.root source then
          let successor ← moveToSuccessor source record.root
          setTxnRoot txn successor
          deleteNodeRevision record.root
        else pure ()
        setTxnBase txn source : Trail Unit) := by
    split
    · exact (holding_setTxnBase robust txn source).bind fun _ => holding_setTxnRoot robust txn source
    · apply (holding_merge robust order depth depth _ _ _ _).bind
      intro _
      split
      · exact (holding_moveToSuccessor robust _ _).bind fun successor =>
          (holding_setTxnRoot robust txn successor).bind fun _ =>
            (holding_deleteNodeRevision robust _).bind fun _ => holding_setTxnBase robust txn source
      · exact holding_setTxnBase robust txn source
  cases ancestor with
  | some ancestor => exact merged ancestor
  | none => exact (reads_getNodeRevision record.base).keeps.bind fun _ => merged record.base

end Bodies

end Subversion.Fs.Trail

namespace Subversion.Fs

open Trail Transactions

/-- The operations that may deltify reps. -/
def FsOp.Deltifies : FsOp → Prop
  | .commitTxn _ => True
  | .deltify .. => True
  | _ => False

/-- The other operations keep what operations on reps keep. -/
theorem holding_runFsOp {kept : Filesystem → Prop} (robust : Robust kept) (order : HashOrder) (depth : Nat)
    {op : FsOp} (other : ¬ op.Deltifies) : Keeps kept (runFsOp order depth op) := by
  cases op with
  | changeNodeProp root path name value =>
      exact (holding_txnBodyChangeNodeProp robust depth root path name value).bind fun _ => keeps_pure _
  | make root path kind =>
      exact (holding_txnBodyMake robust depth root path kind).bind fun _ => keeps_pure _
  | delete root path deleteTree =>
      exact (holding_txnBodyDelete robust depth root path deleteTree).bind fun _ => keeps_pure _
  | copy fromRoot fromPath toRoot toPath preserveHistory =>
      exact (holding_txnBodyCopy robust depth fromRoot fromPath toRoot toPath preserveHistory).bind
        fun _ => keeps_pure _
  | applyTextdelta root path =>
      exact (holding_txnBodyApplyTextdelta robust depth root path).bind fun _ => keeps_pure _
  | writeContents stream bytes =>
      exact (holding_write robust stream.key bytes).bind fun _ => keeps_pure _
  | finalizeEdits stream =>
      exact (holding_finalizeEdits robust stream.node).bind fun _ => keeps_pure _
  | beginTxn rev =>
      exact ((reads_revGetRoot rev).keeps.bind fun root => holding_createTxn robust root).bind
        fun _ => keeps_pure _
  | merge txn source ancestor =>
      exact (holding_txnBodyMerge robust order depth txn source ancestor).bind fun _ => keeps_pure _
  | commitTxn txn => exact absurd trivial other
  | abortTxn txn =>
      have body : Keeps kept (txnBodyAbortTxn depth txn) := by
        apply (reads_getTxn txn).keeps.bind
        intro record
        exact (holding_deleteIfMutable robust depth depth record.root).bind
          fun _ => holding_deleteTxn robust txn
      exact body.bind fun _ => keeps_pure _
  | deltify rev path doDeltify recursive => exact absurd trivial other

end Subversion.Fs
