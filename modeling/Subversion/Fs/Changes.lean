/-
This file states the single changes that the trails of a filesystem are made of.
-/

import Subversion.Fs.Immutability
import Subversion.Fs.Runs
import Subversion.Fs.Trails

namespace Subversion.Fs

open Delta Transactions

/-- What a merge, a deltification, or a write to a stream does without a look at the rest. -/
inductive Risk where
  | adopt (source target : NodeId)
  | drop (target : NodeId)
  | deltify (source : NodeId)
  | write (key : Nat)

/-- The reps that are compared when one node is deltified against the other. -/
def Paired (target source : NodeRev) (key base : Nat) : Prop :=
  (target.propKey = some key ∧ source.propKey = some base) ∨
    ((target.kind = .file ∨ source.kind = .file) ∧ target.dataKey = some key ∧
      source.dataKey = some base)

/-- The later node revision is the predecessor's successor, or a candidate for it. -/
def Follows (earlier later : NodeId) : Prop :=
  idPredecessor later = some earlier ∨ later = nextRevision earlier ∨ later = earlier ++ [1, 1]

/-- The property list of a node is written to a mutable rep. -/
structure SetsProps (fs : Filesystem) (node : NodeRev) (proplist : Skel) (key : Nat) (store : Store) :
    Prop where
  valid : isValidProplist proplist = true
  written : ∃ depth first second, getMutableRep fs.store depth node.propKey = .ok (key, first) ∧
    repContentsClear first key = .ok second ∧
    repWrite second key (unparseSkel proplist) = .ok store

/-- All nodes have the property. -/
def AllNodes (holds : NodeId → NodeRev → Prop) (fs : Filesystem) : Prop :=
  ∀ id node, fs.node id = some node → holds id node

/-- No property list is in the rep. -/
def NoProps (key : Nat) : Filesystem → Prop := AllNodes fun _ node => node.propKey ≠ some key

/-- The ids of a transaction are those of root directories. -/
def Txn.Numbered (record : Txn) : Prop := record.root.headD 0 = 0 ∧ record.base.headD 0 = 0

/-- One change. A node revision that is not mutable is only ever removed by a merge. -/
inductive Change (risky : Filesystem → Risk → Prop) (fs : Filesystem) : Filesystem → Prop where
  | txns {txns : AList fun _ : Nat => Txn} (nextTxn : Nat)
      (numbered : ∀ txn record, txns.lookup txn = some record → record.Numbered)
      (named : fs.nextTxn ≤ nextTxn ∧ ∀ txn record, txns.lookup txn = some record →
        txn < nextTxn ∨ ∃ old, fs.txns.lookup txn = some old) :
      Change risky fs { fs with txns := txns, nextTxn := nextTxn }
  | revision {root : NodeId} (numbered : root.headD 0 = 0) : Change risky fs { fs with revisions := fs.revisions ++ [root] }
  | create {id : NodeId} (kind : NodeKind) (chosen : newNodeId fs.nodes = .ok id)
      (within : WithinLimit id) : Change risky fs (fs.putNode id ⟨kind, none, none, none, none, none⟩)
  | copy {id source : NodeId} {node : NodeRev} (origin : Nat × Bytes)
      (found : fs.node source = some node) (chosen : newNodeId fs.nodes = .ok id)
      (within : WithinLimit id) :
      Change risky fs (fs.putNode id { node with rev := none, copy := some origin })
  | succeed {id old : NodeId} {node : NodeRev} (found : fs.node old = some node)
      (committed : node.rev ≠ none) (chosen : newSuccessorId fs.nodes old = .ok id)
      (within : WithinLimit id) : Change risky fs (fs.putNode id (Trail.makeMutable node))
  | setProps {id : NodeId} {node : NodeRev} {proplist : Skel} {key : Nat} {store : Store}
      (found : fs.node id = some node) (mutable : node.rev = none)
      (sets : SetsProps fs node proplist key store) (other : node.propKey ≠ some key) :
      Change risky fs ((fs.setStore store).putNode id { node with propKey := some key })
  | resetProps {id : NodeId} {node : NodeRev} {proplist : Skel} {key : Nat} {store : Store}
      (found : fs.node id = some node) (mutable : node.rev = none)
      (sets : SetsProps fs node proplist key store) (same : node.propKey = some key) :
      Change risky fs (fs.setStore store)
  | ownData {id : NodeId} {node : NodeRev} {key depth : Nat} {store : Store}
      (found : fs.node id = some node) (mutable : node.rev = none)
      (got : getMutableRep fs.store depth node.dataKey = .ok (key, store))
      (other : node.dataKey ≠ some key) :
      Change risky fs ((fs.setStore store).putNode id { node with dataKey := some key })
  | ownEdit {id : NodeId} {node : NodeRev} {key depth : Nat} {store : Store}
      (found : fs.node id = some node) (isFile : node.kind = .file) (mutable : node.rev = none)
      (unedited : node.editKey = none) (got : getMutableRep fs.store depth none = .ok (key, store)) :
      Change risky fs ((fs.setStore store).putNode id { node with editKey := some key })
  | finalize {id : NodeId} {node : NodeRev} {key : Nat} (found : fs.node id = some node)
      (mutable : node.rev = none) (edited : node.editKey = some key) :
      Change risky fs (fs.putNode id { node with dataKey := some key, editKey := none })
  | remove {id : NodeId} {node : NodeRev} (found : fs.node id = some node) (mutable : node.rev = none) :
      Change risky fs (fs.eraseNode id)
  | rewrite {key : Nat} {bytes : Bytes} {store : Store} (noProps : NoProps key fs)
      (mutable : Mutable fs.store key) (wrote : repWrite fs.store key bytes = .ok store) :
      Change risky fs (fs.setStore store)
  | write {key : Nat} {bytes : Bytes} {store : Store} (risk : risky fs (.write key))
      (wrote : repWrite fs.store key bytes = .ok store) : Change risky fs (fs.setStore store)
  | clear {key : Nat} {store : Store} (noProps : NoProps key fs)
      (cleared : repContentsClear fs.store key = .ok store) : Change risky fs (fs.setStore store)
  | deleteRep {key : Nat} {store : Store} (deleted : deleteRepIfMutable fs.store key = .ok store) :
      Change risky fs (fs.setStore store)
  | freeze {key : Nat} {store : Store} (made : makeRepImmutable fs.store key = .ok store) :
      Change risky fs (fs.setStore store)
  | undeltify {key depth : Nat} {store : Store} (undeltified : repUndeltify fs.store depth key = .ok store) :
      Change risky fs (fs.setStore store)
  | deltify {target source : NodeId} {targetNode sourceNode : NodeRev} {key base depth : Nat}
      {store : Store} (isTarget : fs.node target = some targetNode)
      (isSource : fs.node source = some sourceNode) (follows : Follows target source)
      (paired : Paired targetNode sourceNode key base) (distinct : key ≠ base)
      (committed : sourceNode.rev ≠ none ∨ risky fs (.deltify source))
      (deltified : repDeltify fs.store depth key base = .ok store) : Change risky fs (fs.setStore store)
  | stabilize {id : NodeId} {node : NodeRev} (rev : Nat) (found : fs.node id = some node)
      (mutable : node.rev = none) (finished : node.editKey = none)
      (frozen : ∀ key, node.propKey = some key ∨ node.dataKey = some key → Immutable fs.store key) :
      Change risky fs (fs.putNode id { node with rev := some rev })
  | adopt {source target successor : NodeId} {node : NodeRev} (risk : risky fs (.adopt source target))
      (shaped : Shaped source) (isTarget : fs.node target = some node) (isDir : node.kind = .dir)
      (related : source.headD 0 = target.headD 0)
      (chosen : newSuccessorId fs.nodes source = .ok successor) (within : WithinLimit successor) :
      Change risky fs (fs.putNode successor node)
  | drop {target : NodeId} {node : NodeRev} (risk : risky fs (.drop target))
      (found : fs.node target = some node) (isDir : node.kind = .dir) :
      Change risky fs (fs.eraseNode target)

/-- A series of changes. -/
abbrev Changes (risky : Filesystem → Risk → Prop) : Filesystem → Filesystem → Prop :=
  Relation.ReflTransGen (Change risky)

/-- The risks that an operation may take. -/
def FsOp.Takes : FsOp → Filesystem → Risk → Prop
  | .merge .., _, .adopt _ _ => True
  | .merge .., _, .drop _ => True
  | .deltify .., _, .deltify _ => True
  | .writeContents stream _, _, .write key => key = stream.key
  | _, _, _ => False

end Subversion.Fs
