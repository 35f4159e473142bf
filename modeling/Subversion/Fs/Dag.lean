/-
This file models the nodes of a filesystem: directories, property lists, texts, and their clones.
-/

import Subversion.Fs.Tables

namespace Subversion.Fs

open Delta

/-- A name and the text of an id. -/
abbrev Entry := Bytes × Bytes

def entrySkel (entry : Entry) : Skel := .list [.atom entry.1, .atom entry.2]

def unparseEntries (entries : List Entry) : Bytes := unparseSkel (.list (entries.map entrySkel))

/-- Each entry must be a list of two elements. -/
def skelEntry : Skel → Except SvnError Entry
  | .list [.atom name, .atom id] => .ok (name, id)
  | .list [_, _] => .error SvnError.undefinedBehaviour
  | _ => .error ⟨.fsCorrupt, "Malformed directory entry."⟩

/-- A text that is no list at all is used all the same. -/
def parseEntries (raw : Bytes) : Except SvnError (List Entry) :=
  match parseSkel raw with
  | some (.list children) => children.mapM skelEntry
  | _ => .error SvnError.undefinedBehaviour

/-- An id that cannot be read is a null pointer. -/
def entryId (text : Bytes) : Except SvnError NodeId :=
  match parseId text with
  | some id => .ok id
  | none => .error SvnError.undefinedBehaviour

def findDirEntry (entries : List Entry) (name : Bytes) : Option Bytes := entries.lookup name

/-- An existing entry is tweaked in place, and a new one comes first. -/
def tweakEntry (entries : List Entry) (name id : Bytes) : List Entry :=
  match findDirEntry entries name with
  | some _ => entries.replaceF fun entry => if entry.1 = name then some (name, id) else none
  | none => (name, id) :: entries

/-- Only the first entry of the name is lost. -/
def loseEntry (entries : List Entry) (name : Bytes) : List Entry :=
  entries.eraseP fun entry => entry.1 = name

/-- A single path component is not empty, not a dot or two, and has no slash. -/
def isSinglePathComponent (name : Bytes) : Bool :=
  name ≠ [] && name ≠ [46] && name ≠ [46, 46] && !name.contains 47

/-- The text of a byte string in an error. -/
def bytesText (bytes : Bytes) : String := String.ofList (bytes.map fun byte => Char.ofNat byte.toNat)

/-- An empty list of entries, or of properties. -/
def emptyListText : Bytes := unparseSkel (.list [])

def isValidProplist : Skel → Bool
  | .list children => children.length % 2 = 0 && children.all fun child =>
      match child with
      | .atom _ => true
      | .list _ => false
  | .atom _ => false

/-- The value of a property is set, or the property is removed. A new one comes first. -/
def setPropChildren (name : Bytes) (value : Option Bytes) : List Skel → Option (List Skel)
  | .atom other :: old :: rest =>
      if other = name then
        match value with
        | some value => some (.atom other :: .atom value :: rest)
        | none => some rest
      else (setPropChildren name value rest).map fun rest => .atom other :: old :: rest
  | _ => none

def setProp (proplist : Skel) (name : Bytes) (value : Option Bytes) : Except SvnError Skel :=
  if isValidProplist proplist then
    match proplist with
    | .atom _ => .ok proplist
    | .list children =>
        match setPropChildren name value children, value with
        | some changed, _ => .ok (.list changed)
        | none, some value => .ok (.list (.atom name :: .atom value :: children))
        | none, none => .ok proplist
  else .error ⟨.fsCorrupt, "svn_fs__set_prop: Malformed property list."⟩

namespace Trail

/-- The error of a write to a stream is dropped. -/
def streamWrite (key : Nat) (bytes : Bytes) : Trail Unit := fun fs =>
  match repWrite fs.store key bytes with
  | .ok store => .ok ((), { fs with store := store })
  | .error _ => .ok ((), fs)

def getDirEntries (depth : Nat) (node : NodeRev) : Trail (List Entry) :=
  match node.kind with
  | .file => fail ⟨.fsNotDirectory, "Attempted to create entry in non-directory parent"⟩
  | .dir =>
      match node.dataKey with
      | none => pure []
      | some key => readStore fun store =>
          match repContents store depth key with
          | .error error => .error error
          | .ok raw => parseEntries raw

def dirEntriesSkel (depth : Nat) (id : NodeId) : Trail (List Entry) := do
  let node ← getNodeRevision id
  ensure (node.kind = .dir) ⟨.fsNotDirectory, "Attempted to get entry from non-directory node."⟩
  getDirEntries depth node

/-- The list that a mutable rep holds is changed, and the rep is written anew. -/
def rewriteEntries (depth key : Nat) (change : List Entry → List Entry) : Trail Unit := do
  let entries ← readStore fun store =>
    match repContents store depth key with
    | .error error => .error error
    | .ok raw => parseEntries raw
  changeStore fun store => repContentsClear store key
  streamWrite key (unparseEntries (change entries))

/-- The data key of a node becomes that of a mutable rep. -/
def mutableDataKey (depth : Nat) (id : NodeId) (node : NodeRev) : Trail Nat := do
  let key ← withStore fun store => getMutableRep store depth node.dataKey
  if node.dataKey = some key then pure key
  else
    putNodeRevision id { node with dataKey := some key }
    pure key

def setEntryUnchecked (depth : Nat) (parent : NodeId) (name : Bytes) (id : NodeId) : Trail Unit := do
  let node ← getNodeRevision parent
  let key ← mutableDataKey depth parent node
  if node.dataKey = none then streamWrite key emptyListText else pure ()
  rewriteEntries depth key fun entries => tweakEntry entries name (unparseId id)

def makeEntry (depth : Nat) (parent : NodeId) (name : Bytes) (kind : NodeKind) : Trail NodeId := do
  ensure (isSinglePathComponent name = true) ⟨.fsNotSinglePathComponent,
    "Attempted to create a node with an illegal name `" ++ bytesText name ++ "'"⟩
  let node ← getNodeRevision parent
  ensure (node.kind = .dir) ⟨.fsNotDirectory, "Attempted to create entry in non-directory parent"⟩
  ensure (node.rev = none) ⟨.fsNotMutable, "Attempted to clone child of non-mutable node"⟩
  let entries ← dirEntriesSkel depth parent
  ensure (findDirEntry entries name = none) ⟨.fsAlreadyExists,
    "Attempted to create entry that already exists"⟩
  let id ← createNode ⟨kind, none, none, none, none, none⟩
  setEntryUnchecked depth parent name id
  pure id

def setEntry (depth : Nat) (parent : NodeId) (name : Bytes) (id : NodeId) : Trail Unit := do
  let node ← getNodeRevision parent
  ensure (node.kind = .dir) ⟨.fsNotDirectory, "Attempted to set entry in non-directory node."⟩
  ensure (node.rev = none) ⟨.fsNotDirectory, "Attempted to set entry in immutable node."⟩
  setEntryUnchecked depth parent name id

def openChild (depth : Nat) (parent : NodeId) (name : Bytes) : Trail NodeId := do
  let entries ← dirEntriesSkel depth parent
  match findDirEntry entries name with
  | none => fail ⟨.fsNotFound, "Attempted to open non-existant child node \"" ++ bytesText name ++ "\""⟩
  | some text =>
      ensure (isSinglePathComponent name = true) ⟨.fsNotSinglePathComponent,
        "Attempted to open node with an illegal name `" ++ bytesText name ++ "'"⟩
      let id ← readStore fun _ => entryId text
      let _ ← getNodeRevision id
      pure id

def getProplist (depth : Nat) (id : NodeId) : Trail Skel := do
  let node ← getNodeRevision id
  match node.propKey with
  | none => pure (.list [])
  | some key => readStore fun store =>
      match repContents store depth key with
      | .error error => .error error
      | .ok raw =>
          match parseSkel raw with
          | some proplist => .ok proplist
          | none => .error SvnError.undefinedBehaviour

def setProplist (depth : Nat) (id : NodeId) (proplist : Skel) : Trail Unit := do
  let node ← getNodeRevision id
  ensure (node.rev = none) ⟨.fsNotMutable,
    "Can't set_proplist on *immutable* node-revision " ++ idText id⟩
  ensure (isValidProplist proplist = true) ⟨.fsCorrupt,
    "svn_fs__dag_set_proplist: Malformed property list."⟩
  let key ← withStore fun store => getMutableRep store depth node.propKey
  if node.propKey = some key then pure ()
  else putNodeRevision id { node with propKey := some key }
  changeStore fun store => repContentsClear store key
  changeStore fun store => repWrite store key (unparseSkel proplist)

/-- A clone has no revision yet and does not claim to be a copy. -/
def makeMutable (node : NodeRev) : NodeRev := { node with rev := none, copy := none }

def cloneChild (depth : Nat) (parent : NodeId) (name : Bytes) : Trail NodeId := do
  let node ← getNodeRevision parent
  ensure (node.rev = none) ⟨.fsNotMutable, "Attempted to clone child of non-mutable node"⟩
  ensure (isSinglePathComponent name = true) ⟨.fsNotSinglePathComponent,
    "Attempted to make a child clone with an illegal name `" ++ bytesText name ++ "'"⟩
  let current ← openChild depth parent name
  let child ← getNodeRevision current
  if child.rev = none then pure current
  else
    let id ← createSuccessor current (makeMutable child)
    setEntryUnchecked depth parent name id
    pure id

/-- If the ids are the same, the root of the transaction has not been cloned yet. -/
def cloneRoot (txn : Nat) : Trail NodeId := do
  let record ← getTxn txn
  if record.root = record.base then
    let node ← getNodeRevision record.base
    let id ← createSuccessor record.base (makeMutable node)
    setTxnRoot txn id
    pure id
  else
    let _ ← getNodeRevision record.root
    pure record.root

def deleteRepOf (key : Option Nat) : Trail Unit :=
  match key with
  | none => pure ()
  | some key => changeStore fun store => deleteRepIfMutable store key

/-- Each unit of depth goes down one directory. -/
def deleteIfMutable : Nat → Nat → NodeId → Trail Unit
  | _, 0, _ => fail SvnError.stackExhausted
  | depth, fuel + 1, id => do
      let node ← getNodeRevision id
      if node.rev ≠ none then pure ()
      else
        if node.kind = .dir then
          let entries ← dirEntriesSkel depth id
          entries.forM fun entry => do
            let child ← readStore fun _ => entryId entry.2
            deleteIfMutable depth fuel child
        else pure ()
        deleteRepOf node.propKey
        deleteRepOf node.dataKey
        deleteRepOf node.editKey
        deleteNodeRevision id

def deleteEntry (depth : Nat) (parent : NodeId) (name : Bytes) (requireEmpty : Bool) : Trail Unit := do
  let node ← getNodeRevision parent
  ensure (node.kind = .dir) ⟨.fsNotDirectory,
    "Attempted to delete entry `" ++ bytesText name ++ "' from *non*-directory node."⟩
  ensure (node.rev = none) ⟨.fsNotMutable,
    "Attempted to delete entry `" ++ bytesText name ++ "' from *immutable* directory node."⟩
  ensure (isSinglePathComponent name = true) ⟨.fsNotSinglePathComponent,
    "Attempted to delete a node with an illegal name `" ++ bytesText name ++ "'"⟩
  ensure (node.dataKey ≠ none) ⟨.fsNoSuchEntry,
    "Delete failed--directory has no entry `" ++ bytesText name ++ "'"⟩
  let key ← mutableDataKey depth parent node
  let entries ← readStore fun store =>
    match repContents store depth key with
    | .error error => .error error
    | .ok raw => parseEntries raw
  match findDirEntry entries name with
  | none => fail ⟨.fsNoSuchEntry, "Delete failed--directory has no entry `" ++ bytesText name ++ "'"⟩
  | some text =>
      let id ← readStore fun _ => entryId text
      let child ← getNodeRevision id
      if child.kind = .dir then
        let inside ← dirEntriesSkel depth id
        ensure (requireEmpty = false ∨ inside = []) ⟨.fsDirNotEmpty,
          "Attempt to delete non-empty directory `" ++ bytesText name ++ "'."⟩
      else pure ()
      deleteIfMutable depth depth id
      changeStore fun store => repContentsClear store key
      changeStore fun store => repWrite store key (unparseEntries (loseEntry entries name))

/-- A second edit key makes the node revision too long to be valid. -/
def getEditStream (depth : Nat) (id : NodeId) : Trail Nat := do
  let node ← getNodeRevision id
  ensure (node.kind = .file) ⟨.fsNotFile, "Attempted to set textual contents of a *non*-file node."⟩
  ensure (node.rev = none) ⟨.fsNotMutable, "Attempted to set textual contents of an immutable node."⟩
  deleteRepOf node.editKey
  let key ← withStore fun store => getMutableRep store depth none
  let fs ← get
  ensure (node.editKey = none) (errCorruptNodeRevision fs.nodes.path id)
  putNodeRevision id { node with editKey := some key }
  pure key

/-- The node was a file when its stream was opened. -/
def finalizeEdits (id : NodeId) : Trail Unit := do
  let node ← getNodeRevision id
  ensure (node.rev = none) ⟨.fsNotMutable, "Attempted to set textual contents of an immutable node."⟩
  match node.editKey with
  | none => pure ()
  | some key =>
      putNodeRevision id { node with dataKey := some key, editKey := none }
      deleteRepOf node.dataKey

/-- With history, the copy is a new node that remembers where it came from. -/
def copy (depth : Nat) (toNode : NodeId) (name : Bytes) (fromNode : NodeId) (preserveHistory : Bool)
    (fromRev : Nat) (fromPath : Bytes) : Trail Unit := do
  if preserveHistory then
    let node ← getNodeRevision fromNode
    let id ← createNode { node with rev := none, copy := some (fromRev, fromPath) }
    setEntry depth toNode name id
  else setEntry depth toNode name fromNode

/-- In a directory, only the properties are deltified. -/
def deltify (depth : Nat) (target source : NodeId) (propsOnly : Bool) : Trail Unit := do
  let targetNode ← getNodeRevision target
  let sourceNode ← getNodeRevision source
  match targetNode.propKey, sourceNode.propKey with
  | some targetKey, some sourceKey =>
      if targetKey = sourceKey then pure ()
      else changeStore fun store => repDeltify store depth targetKey sourceKey
  | _, _ => pure ()
  match targetNode.dataKey, sourceNode.dataKey with
  | some targetKey, some sourceKey =>
      if propsOnly = true ∨ targetKey = sourceKey then pure ()
      else changeStore fun store => repDeltify store depth targetKey sourceKey
  | _, _ => pure ()

def undeltifyRepOf (depth : Nat) (key : Option Nat) : Trail Unit :=
  match key with
  | none => pure ()
  | some key => changeStore fun store => repUndeltify store depth key

def undeltify (depth : Nat) (id : NodeId) : Trail Unit := do
  let node ← getNodeRevision id
  undeltifyRepOf depth node.propKey
  undeltifyRepOf depth node.dataKey

/-- The next revision is the source if it is there, else the first branch. Neither need be
committed. -/
def deltifyById (depth : Nat) (target : NodeId) (isDir : Bool) : Trail Unit := do
  let fs ← get
  match fs.nodes.entries.lookup (nextRevision target),
      fs.nodes.entries.lookup (target ++ [1, 1]) with
  | some _, _ => deltify depth target (nextRevision target) isDir
  | none, some _ => deltify depth target (target ++ [1, 1]) isDir
  | none, none => pure ()

/-- The order in which a hash gives its entries. -/
structure HashOrder where
  list : List Entry → List Entry
  perm : ∀ entries, (list entries).Perm entries

/-- Later entries of a name replace earlier ones in a hash. -/
def dirEntriesHash (depth : Nat) (id : NodeId) : Trail (List Entry) := do
  let entries ← dirEntriesSkel depth id
  pure (entries.pwFilter fun first second => first.1 ≠ second.1)

/-- Each unit of fuel goes down one directory. -/
def deltifyUndeltify (order : HashOrder) (depth : Nat) (doDeltify recurse : Bool) :
    Nat → NodeId → Trail Unit
  | 0, _ => fail SvnError.stackExhausted
  | fuel + 1, id => do
      let node ← getNodeRevision id
      if node.kind = .dir ∧ recurse = true then
        let entries ← dirEntriesHash depth id
        (order.list entries).forM fun entry => do
          let child ← readStore fun _ => entryId entry.2
          deltifyUndeltify order depth doDeltify recurse fuel child
      else pure ()
      if doDeltify then deltifyById depth id (node.kind = .dir) else undeltify depth id

def stableNode (depth : Nat) (id : NodeId) : Trail Unit := do
  let node ← getNodeRevision id
  match idPredecessor id with
  | none => pure ()
  | some predecessor => deltify depth predecessor id (node.kind = .dir)

def immutableRepOf (key : Option Nat) : Trail Unit :=
  match key with
  | none => pure ()
  | some key => changeStore fun store => makeRepImmutable store key

def makeNodeImmutable (id : NodeId) (rev : Nat) : Trail Unit := do
  let node ← getNodeRevision id
  if node.rev ≠ none then pure ()
  else
    ensure (node.editKey = none) ⟨.fsCorrupt,
      "make_node_immutable: node `" ++ idText id ++ "' has unfinished edits"⟩
    immutableRepOf node.propKey
    immutableRepOf node.dataKey
    putNodeRevision id { node with rev := some rev }

/-- Each unit of fuel goes down one directory. -/
def stabilizeNode (depth : Nat) (rev : Nat) : Nat → NodeId → Trail Unit
  | 0, _ => fail SvnError.stackExhausted
  | fuel + 1, id => do
      let node ← getNodeRevision id
      if node.rev ≠ none then pure ()
      else
        if node.kind = .dir then
          let entries ← dirEntriesSkel depth id
          entries.forM fun entry => do
            let child ← readStore fun _ => entryId entry.2
            stabilizeNode depth rev fuel child
        else pure ()
        makeNodeImmutable id rev
        stableNode depth id

/-- The revision is entered before its nodes become immutable. -/
def commitTxn (depth : Nat) (txn : Nat) : Trail Nat := do
  let record ← getTxn txn
  let _ ← getNodeRevision record.root
  let rev ← putRev record.root
  stabilizeNode depth rev depth record.root
  deleteTxn txn
  pure rev

end Trail

end Subversion.Fs
