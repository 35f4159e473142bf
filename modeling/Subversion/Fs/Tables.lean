/-
This file models the tables of a filesystem and the trails that change them.
-/

import Subversion.Fs.NodesTable
import Subversion.Fs.RepOps
import Subversion.Fs.Skel

namespace Subversion.Fs

open Delta

inductive NodeKind where
  | file
  | dir
  deriving DecidableEq, Repr

/-- A node revision. It is mutable while it has no revision. The keys name representations. -/
structure NodeRev where
  kind : NodeKind
  rev : Option Nat
  copy : Option (Nat × Bytes)
  propKey : Option Nat
  dataKey : Option Nat
  editKey : Option Nat
  deriving DecidableEq, Repr

/-- Only a mutable file may have an edit key. -/
def isValidNodeRevision (node : NodeRev) : Bool :=
  node.editKey = none || (node.kind = .file && node.rev = none)

structure Txn where
  root : NodeId
  base : NodeId
  deriving DecidableEq, Repr

/-- The properties of revisions and transactions are left out. -/
structure Filesystem where
  nodes : NodesTable NodeRev
  store : Store
  revisions : List NodeId
  txns : AList fun _ : Nat => Txn
  nextTxn : Nat

def Filesystem.node (fs : Filesystem) (id : NodeId) : Option NodeRev := fs.nodes.entries.lookup id

/-- A trail changes the tables, or it fails and is rolled back. -/
abbrev Trail := StateT Filesystem (Except SvnError)

def fail {A : Type} (error : SvnError) : Trail A := fun _ => .error error

def ensure (condition : Prop) [Decidable condition] (error : SvnError) : Trail Unit :=
  if condition then pure () else fail error

/-- A computation on the representations and strings. -/
def withStore {A : Type} (change : Store → Except SvnError (A × Store)) : Trail A := fun fs =>
  match change fs.store with
  | .error error => .error error
  | .ok (result, store) => .ok (result, { fs with store := store })

def changeStore (change : Store → Except SvnError Store) : Trail Unit :=
  withStore fun store => (change store).map fun next => ((), next)

def readStore {A : Type} (read : Store → Except SvnError A) : Trail A :=
  withStore fun store => (read store).map fun result => (result, store)

/-- A computation on the nodes table. -/
def withNodes {A : Type} (change : NodesTable NodeRev → Except SvnError (A × NodesTable NodeRev)) :
    Trail A := fun fs =>
  match change fs.nodes with
  | .error error => .error error
  | .ok (result, nodes) => .ok (result, { fs with nodes := nodes })

namespace Trail

def errCorruptNodeRevision (path : String) (id : NodeId) : SvnError :=
  ⟨.fsCorrupt, "corrupt node revision for node `" ++ idText id ++ "' in filesystem `" ++ path ++ "'"⟩

def getNodeRevision (id : NodeId) : Trail NodeRev :=
  withNodes fun nodes => (Fs.getNodeRevision nodes id).map fun node => (node, nodes)

def putNodeRevision (id : NodeId) (node : NodeRev) : Trail Unit :=
  withNodes fun nodes =>
    if isValidNodeRevision node then .ok ((), Fs.putNodeRevision nodes id node)
    else .error (errCorruptNodeRevision nodes.path id)

/-- An id over the limit is a null pointer wherever it is read back, so the model ends here. -/
def chooseId (choice : NodesTable NodeRev → Except SvnError NodeId) : Trail NodeId := fun fs =>
  match choice fs.nodes with
  | .error error => .error error
  | .ok id => if WithinLimit id then .ok (id, fs) else .error SvnError.undefinedBehaviour

def createNode (node : NodeRev) : Trail NodeId := do
  let id ← chooseId newNodeId
  putNodeRevision id node
  pure id

def newSuccessorId (id : NodeId) : Trail NodeId := chooseId fun nodes => Fs.newSuccessorId nodes id

def createSuccessor (oldId : NodeId) (node : NodeRev) : Trail NodeId := do
  let id ← newSuccessorId oldId
  putNodeRevision id node
  pure id

def deleteNodeRevision (id : NodeId) : Trail Unit :=
  withNodes fun nodes => (deleteNodesEntry nodes id).map fun next => ((), next)

def getTxn (txn : Nat) : Trail Txn := fun fs =>
  match fs.txns.lookup txn with
  | some record =>
      -- the ids are read back from their texts
      if WithinLimit record.root ∧ WithinLimit record.base then .ok (record, fs)
      else .error ⟨.fsCorrupt, "Transaction contains an invalid id."⟩
  | none => .error ⟨.fsNoSuchTransaction,
      "no transaction named `" ++ toString txn ++ "' in filesystem `" ++ fs.nodes.path ++ "'"⟩

def putTxn (txn : Nat) (record : Txn) : Trail Unit := fun fs =>
  .ok ((), { fs with txns := fs.txns.insert txn record })

def setTxnRoot (txn : Nat) (root : NodeId) : Trail Unit := do
  let record ← getTxn txn
  if record.root = root then pure () else putTxn txn { record with root := root }

def setTxnBase (txn : Nat) (base : NodeId) : Trail Unit := do
  let record ← getTxn txn
  if record.base = base then pure () else putTxn txn { record with base := base }

/-- Transaction numbers are read back up to a limit. -/
def createTxn (root : NodeId) : Trail Nat := fun fs =>
  if 1000000 < fs.nextTxn then
    .error ⟨.fsCorrupt, "corrupt value for `next-id' key in `transactions' table of filesystem `" ++
      fs.nodes.path ++ "'"⟩
  else
    .ok (fs.nextTxn, { fs with
      txns := fs.txns.insert fs.nextTxn ⟨root, root⟩
      nextTxn := fs.nextTxn + 1 })

def deleteTxn (txn : Nat) : Trail Unit := fun fs =>
  match fs.txns.lookup txn with
  | some _ => .ok ((), { fs with txns := fs.txns.erase txn })
  | none => .error ⟨.berkeleyDb, "deleting entry from `transactions' table"⟩

def revGetRoot (rev : Nat) : Trail NodeId := fun fs =>
  match fs.revisions[rev]? with
  | none => .error ⟨.fsCorrupt, "reference to non-existent revision `" ++ toString rev ++
      "' in filesystem `" ++ fs.nodes.path ++ "'"⟩
  | some root =>
      if WithinLimit root then .ok (root, fs)
      else .error ⟨.fsCorrupt, "corrupt filesystem revision `18446744073709551615' in filesystem `" ++ fs.nodes.path ++
        "'"⟩

/-- A new revision is appended. -/
def putRev (root : NodeId) : Trail Nat := fun fs =>
  .ok (fs.revisions.length, { fs with revisions := fs.revisions ++ [root] })

def youngestRev : Trail Nat := fun fs =>
  match fs.revisions with
  | [] => .error ⟨.fsCorrupt, "revision 0 missing from `revisions' table, in filesystem `" ++
      fs.nodes.path ++ "'"⟩
  | _ :: rest => .ok (rest.length, fs)

end Trail

end Subversion.Fs
