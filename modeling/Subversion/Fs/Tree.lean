/-
This file models paths, the operations on trees, and the merges and commits of transactions.
-/

import Subversion.Fs.Dag

namespace Subversion.Fs

open Delta

inductive Root where
  | revision (rev : Nat)
  | txn (txn : Nat)
  | id
  deriving DecidableEq, Repr

/-- A path from a node up to the root. The bottom node may be missing. -/
inductive ParentPath where
  | root (node : NodeId)
  | child (node : Option NodeId) (entry : Bytes) (parent : ParentPath)
  deriving DecidableEq, Repr

def ParentPath.node : ParentPath → Option NodeId
  | .root node => some node
  | .child node _ _ => node

/-- The first component, and what comes after the slashes behind it. -/
def nextEntryName (path : Bytes) : Bytes × Option Bytes :=
  match path.dropWhile (· ≠ 47) with
  | [] => (path, none)
  | rest => (path.takeWhile (· ≠ 47), some (rest.dropWhile (· = 47)))

namespace Trail

def notTxn : SvnError := ⟨.fsNotTxnRoot, "root object must be a transaction root"⟩

def notFound (root : Root) (path : Bytes) : SvnError :=
  match root with
  | .txn txn => ⟨.fsNotFound, "file not found: transaction `" ++ toString txn ++ "', path `" ++
      bytesText path ++ "'"⟩
  | .revision rev => ⟨.fsNotFound, "file not found: revision `" ++ toString rev ++ "', path `" ++
      bytesText path ++ "'"⟩
  | .id => SvnError.assertion

def alreadyExists (fsPath : String) (root : Root) (path : Bytes) : SvnError :=
  match root with
  | .txn txn => ⟨.fsAlreadyExists, "file already exists: filesystem `" ++ fsPath ++
      "', transaction `" ++ toString txn ++ "', path `" ++ bytesText path ++ "'"⟩
  | .revision rev => ⟨.fsAlreadyExists, "file already exists: filesystem `" ++ fsPath ++
      "', revision `" ++ toString rev ++ "', path `" ++ bytesText path ++ "'"⟩
  | .id => SvnError.assertion

def rootNode (root : Root) : Trail NodeId := do
  let id ←
    match root with
    | .revision rev => revGetRoot rev
    | .txn txn => do
        let record ← getTxn txn
        pure record.root
    | .id => fail SvnError.assertion
  let _ ← getNodeRevision id
  pure id

def ensureDirectory (id : NodeId) (path : Bytes) : Trail Unit := do
  let node ← getNodeRevision id
  let fs ← get
  ensure (node.kind = .dir) ⟨.fsNotDirectory,
    "`" ++ bytesText path ++ "' is not a directory in filesystem `" ++ fs.nodes.path ++ "'"⟩

/-- The loop of `open_path`. Each round reads one component, and the directory that it is read in
stays the same for an empty one. -/
def openPathFrom (depth : Nat) (root : Root) (path : Bytes) (lastOptional : Bool) :
    Nat → NodeId → ParentPath → Bytes → Trail ParentPath
  | 0, _, _, _ => fail SvnError.stackExhausted
  | fuel + 1, here, parentPath, rest =>
      let (entry, next) := nextEntryName rest
      if entry = [] then
        match next with
        | none => pure parentPath
        | some more => do
            ensureDirectory here path
            openPathFrom depth root path lastOptional fuel here parentPath more
      else fun fs =>
        match openChild depth here entry fs with
        | .ok (child, fs) =>
            (match next with
            | none => pure (.child (some child) entry parentPath)
            | some more => do
                ensureDirectory child path
                openPathFrom depth root path lastOptional fuel child
                  (.child (some child) entry parentPath) more : Trail ParentPath) fs
        | .error error =>
            if error.code = .fsNotFound then
              if lastOptional = true ∧ (next = none ∨ next = some []) then
                .ok (.child none entry parentPath, fs)
              else .error (notFound root path)
            else .error error

def openPath (depth : Nat) (root : Root) (path : Bytes) (lastOptional : Bool) : Trail ParentPath :=
  match root with
  | .id =>
      if lastOptional then fail SvnError.assertion
      else
        match parseId path with
        | none => fail ⟨.fsNotId, "`" ++ bytesText path ++ "' is not a node revision ID"⟩
        | some id => do
            let _ ← getNodeRevision id
            pure (.root id)
  | root => do
      let here ← rootNode root
      openPathFrom depth root path lastOptional (path.length + 1) here (.root here) path

def mutableRootNode (root : Root) (errorPath : Bytes) : Trail NodeId :=
  match root with
  | .txn txn => cloneRoot txn
  | .revision rev => do
      let fs ← get
      fail ⟨.fsNotMutable, "File is not mutable: filesystem `" ++ fs.nodes.path ++ "', revision " ++
        toString rev ++ ", path `" ++ bytesText errorPath ++ "'"⟩
  | .id => do
      let fs ← get
      fail ⟨.fsNotMutable, "File is not mutable: filesystem `" ++ fs.nodes.path ++
        "', revision -1, path `" ++ bytesText errorPath ++ "'"⟩

/-- The node at the end of the path becomes mutable, with all its parents. -/
def makePathMutable (depth : Nat) (root : Root) (errorPath : Bytes) : ParentPath → Trail NodeId
  | .root id => do
      let node ← getNodeRevision id
      if node.rev = none then pure id else mutableRootNode root errorPath
  | .child none _ _ => fail SvnError.undefinedBehaviour
  | .child (some id) entry parent => do
      let node ← getNodeRevision id
      if node.rev = none then pure id
      else
        let parentId ← makePathMutable depth root errorPath parent
        cloneChild depth parentId entry

/-- The parent of the root is a null pointer. -/
def parentOf : ParentPath → Trail (ParentPath × Bytes)
  | .root _ => fail SvnError.undefinedBehaviour
  | .child _ entry parent => pure (parent, entry)

def ensureTxnRoot (root : Root) : Trail Unit :=
  match root with
  | .txn _ => pure ()
  | _ => fail notTxn

def getDag (depth : Nat) (root : Root) (path : Bytes) : Trail NodeId := do
  let parentPath ← openPath depth root path false
  match parentPath.node with
  | some id => pure id
  | none => fail SvnError.undefinedBehaviour

def txnBodyChangeNodeProp (depth : Nat) (root : Root) (path name : Bytes) (value : Option Bytes) :
    Trail Unit := do
  ensureTxnRoot root
  let parentPath ← openPath depth root path false
  let id ← makePathMutable depth root path parentPath
  let proplist ← getProplist depth id
  let changed ← readStore fun _ => setProp proplist name value
  setProplist depth id changed

/-- Only the public function for directories asks for a transaction root at once. -/
def txnBodyMake (depth : Nat) (root : Root) (path : Bytes) (kind : NodeKind) : Trail Unit := do
  if kind = .dir then ensureTxnRoot root else pure ()
  let parentPath ← openPath depth root path true
  let fs ← get
  ensure (parentPath.node = none) (alreadyExists fs.nodes.path root path)
  let (parent, entry) ← parentOf parentPath
  let parentId ← makePathMutable depth root path parent
  let _ ← makeEntry depth parentId entry kind

def txnBodyDelete (depth : Nat) (root : Root) (path : Bytes) (deleteTree : Bool) : Trail Unit := do
  let parentPath ← openPath depth root path false
  ensureTxnRoot root
  match parentPath with
  | .root _ => fail ⟨.fsRootDir, "the root directory cannot be deleted"⟩
  | .child _ entry parent =>
      let parentId ← makePathMutable depth root path parent
      deleteEntry depth parentId entry (!deleteTree)

/-- Without history, this is `svn_fs_link`. -/
def txnBodyCopy (depth : Nat) (fromRoot : Root) (fromPath : Bytes) (toRoot : Root) (toPath : Bytes)
    (preserveHistory : Bool) : Trail Unit := do
  ensureTxnRoot toRoot
  match fromRoot with
  | .revision rev =>
      let fromId ← getDag depth fromRoot fromPath
      let toParentPath ← openPath depth toRoot toPath true
      let (parent, entry) ← parentOf toParentPath
      let parentId ← makePathMutable depth toRoot toPath parent
      copy depth parentId entry fromId preserveHistory rev fromPath
  | _ => fail ⟨.fsGeneral, "copy from mutable tree not currently supported"⟩

/-- The node that is edited, and the rep that its new text is written to. -/
structure Stream where
  node : NodeId
  key : Nat
  deriving DecidableEq, Repr

def txnBodyApplyTextdelta (depth : Nat) (root : Root) (path : Bytes) : Trail Stream := do
  let parentPath ← openPath depth root path false
  let id ← makePathMutable depth root path parentPath
  let node ← getNodeRevision id
  ensure (node.kind = .file) ⟨.fsNotFile, "Attempted to get textual contents of a *non*-file node."⟩
  let key ← getEditStream depth id
  pure ⟨id, key⟩

def conflict (path : Bytes) : SvnError := ⟨.fsConflict, "conflict at \"" ++ bytesText path ++ "\""⟩

def pathAppend (dir entry : Bytes) : Bytes := dir ++ 47 :: entry

/-- An id that cannot be read is a null pointer. -/
def entryIds (entries : List Entry) : Except SvnError (List (Bytes × NodeId)) :=
  entries.mapM fun entry =>
    match entryId entry.2 with
    | .ok id => .ok (entry.1, id)
    | .error error => .error error

def ensureMutable (target : NodeId) (targetPath : Bytes) : Trail Unit := do
  let node ← getNodeRevision target
  ensure (node.rev = none) ⟨.fsNotMutable, "unexpected immutable node at \"" ++ bytesText targetPath ++
    "\""⟩

/-- The target is one step from the ancestor, and the source is a later relative of it. -/
def rebases (ancestor target source : NodeId) : Bool :=
  idDistance ancestor target = some 1 &&
    match idDistance ancestor source with
    | some distance => 1 ≤ distance
    | none => false

/-- The target is copied to a successor of the source. -/
def moveToSuccessor (source target : NodeId) : Trail NodeId := do
  let successor ← newSuccessorId source
  let node ← getNodeRevision target
  putNodeRevision successor node
  pure successor

/-- The changes of one name, which the ancestor has. -/
def mergeEntry (recurse : Bytes → NodeId → NodeId → NodeId → Trail Unit) (depth : Nat)
    (targetPath : Bytes) (target : NodeId) (name : Bytes) (ancestor : NodeId)
    (source current : Option NodeId) : Trail Unit :=
  match source, current with
  | some source, some current => do
      if ancestor = source then pure ()
      else if ancestor = current ∨
          (idIsAncestor ancestor current = true ∧ idIsAncestor current source = true) then
        ensureMutable target targetPath
        setEntry depth target name source
      else if idIsAncestor source current then pure ()
      else
        let sourceNode ← getNodeRevision source
        let currentNode ← getNodeRevision current
        let ancestorNode ← getNodeRevision ancestor
        ensure (sourceNode.kind = .dir ∧ currentNode.kind = .dir ∧ ancestorNode.kind = .dir)
          (conflict (pathAppend targetPath name))
        recurse (pathAppend targetPath name) current source ancestor
        if rebases ancestor current source then
          let successor ← moveToSuccessor source current
          setEntry depth target name successor
          deleteNodeRevision current
        else pure ()
  | some source, none => ensure (ancestor = source) (conflict (pathAppend targetPath name))
  | none, some current =>
      if current = ancestor then do
        ensureMutable target targetPath
        deleteEntry depth target name false
      else ensure (idDistance current ancestor = none) (conflict (pathAppend targetPath name))
  | none, none => pure ()

/-- A name that the ancestor does not have. -/
def mergeAddition (depth : Nat) (targetPath : Bytes) (target : NodeId) (name : Bytes)
    (source : NodeId) (current : Option NodeId) : Trail Unit :=
  match current with
  | none => do
      ensureMutable target targetPath
      setEntry depth target name source
  | some current => ensure (idIsAncestor source current = true) (conflict (pathAppend targetPath name))

def hashIds (order : HashOrder) (depth : Nat) (id : NodeId) : Trail (List (Bytes × NodeId)) := do
  let entries ← dirEntriesHash depth id
  readStore fun _ => entryIds (order.list entries)

/-- Each unit of fuel goes down one directory. -/
def merge (order : HashOrder) (depth : Nat) :
    Nat → Bytes → NodeId → NodeId → NodeId → Trail Unit
  | 0, _, _, _, _ => fail SvnError.stackExhausted
  | fuel + 1, targetPath, target, source, ancestor => do
      ensure (ancestor ≠ target) ⟨.fsGeneral, "Bad merge call -- target `" ++ bytesText targetPath ++
        "' has id `" ++ idText target ++ "', same as ancestor."⟩
      if ancestor = source ∨ source = target then pure ()
      else
        let sourceNode ← getNodeRevision source
        let targetNode ← getNodeRevision target
        let ancestorNode ← getNodeRevision ancestor
        ensure (sourceNode.kind = .dir ∧ targetNode.kind = .dir ∧ ancestorNode.kind = .dir)
          (conflict targetPath)
        -- property changes are only made to directories that are up to date
        ensure (targetNode.propKey = ancestorNode.propKey) (conflict targetPath)
        let sources ← hashIds order depth source
        let targets ← hashIds order depth target
        let ancestors ← hashIds order depth ancestor
        ancestors.forM fun entry =>
          mergeEntry (merge order depth fuel) depth targetPath target entry.1 entry.2
            (sources.lookup entry.1) (targets.lookup entry.1)
        (sources.filter fun entry => (ancestors.lookup entry.1).isNone).forM fun entry =>
          mergeAddition depth targetPath target entry.1 entry.2 (targets.lookup entry.1)

/-- Without an ancestor, the base of the transaction is taken. A transaction without changes
becomes a repeat of the source. -/
def txnBodyMerge (order : HashOrder) (depth : Nat) (txn : Nat) (source : NodeId)
    (ancestor : Option NodeId) : Trail Unit := do
  let record ← getTxn txn
  let _ ← getNodeRevision record.root
  let ancestor ←
    match ancestor with
    | some ancestor => pure ancestor
    | none => do
        let _ ← getNodeRevision record.base
        pure record.base
  if ancestor = record.root then
    setTxnBase txn source
    setTxnRoot txn source
  else
    merge order depth depth [] record.root source ancestor
    if rebases ancestor record.root source then
      let successor ← moveToSuccessor source record.root
      setTxnRoot txn successor
      deleteNodeRevision record.root
    else pure ()
    setTxnBase txn source

/-- The base of the transaction must be the root of the youngest revision. -/
def txnBodyCommit (depth : Nat) (txn : Nat) : Trail Nat := do
  let youngest ← youngestRev
  let youngestRoot ← revGetRoot youngest
  let record ← getTxn txn
  let _ ← getNodeRevision record.base
  ensure (youngestRoot = record.base) ⟨.txnOutOfDate, "txn `" ++ toString txn ++
    "' out of date w.r.t. revision `" ++ idText youngestRoot ++ "'"⟩
  commitTxn depth txn

def txnBodyBeginTxn (rev : Nat) : Trail Nat := do
  let root ← revGetRoot rev
  createTxn root

def txnBodyAbortTxn (depth : Nat) (txn : Nat) : Trail Unit := do
  let record ← getTxn txn
  deleteIfMutable depth depth record.root
  deleteTxn txn

def txnBodyDeltify (order : HashOrder) (depth : Nat) (rev : Nat) (path : Bytes)
    (doDeltify recursive : Bool) : Trail Unit := do
  let id ← getDag depth (.revision rev) path
  deltifyUndeltify order depth doDeltify recursive depth id

/-- The root directory of a new filesystem is committed as revision zero. -/
def dagInitFs (path : String) : Filesystem where
  nodes := ⟨path, AList.singleton [0, 0] ⟨.dir, some 0, none, none, none, none⟩⟩
  store := emptyStore
  revisions := [[0, 0]]
  txns := ∅
  nextTxn := 0

end Trail

end Subversion.Fs
