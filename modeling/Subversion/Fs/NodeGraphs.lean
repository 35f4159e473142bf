/-
This file presents the nodes of a filesystem as a graph, whose edges are the entries of directories.
-/

import Subversion.Fs.Archive
import Subversion.Fs.ListKeeping
import Subversion.Lib.SharedTrees

namespace Subversion.Fs

open Delta SharedTrees

/-- What is seen of a node besides its entries. -/
structure Face where
  kind : NodeKind
  propKey : Option Nat
  textKey : Option Nat
  deriving DecidableEq, Repr

def NodeRev.face (node : NodeRev) : Face :=
  ⟨node.kind, node.propKey, if node.kind = .dir then none else node.dataKey⟩

/-- The entries of a directory, as far as they can be read. -/
def Filesystem.listed (fs : Filesystem) (node : NodeRev) : List Entry :=
  match node.kind, node.dataKey with
  | .dir, some key =>
      match repContents fs.store 1 key with
      | .ok raw =>
          match parseEntries raw with
          | .ok entries => entries
          | .error _ => []
      | .error _ => []
  | _, _ => []

def childOf (entries : List Entry) (name : Bytes) : Option NodeId :=
  (findDirEntry entries name).bind parseId

def Filesystem.vertex (fs : Filesystem) (node : NodeRev) : Vertex NodeId Bytes Face :=
  ⟨node.face, node.rev.isSome, childOf (fs.listed node)⟩

def Filesystem.graph (fs : Filesystem) : Graph NodeId Bytes Face := fun id => (fs.node id).map fs.vertex

/-- The roots of transactions. -/
def Filesystem.tops (fs : Filesystem) : Set NodeId :=
  {root | ∃ txn record, fs.txns.lookup txn = some record ∧ record.root = root}

/-- A name that a path can have, and the id of a child. -/
structure ProperEntry (entry : Entry) : Prop where
  name : isSinglePathComponent entry.1 = true
  child : ∃ id, parseId entry.2 = some id

/-- The base is committed, and the root is the base or can be changed. -/
structure TxnPlanted (fs : Filesystem) (record : Txn) : Prop where
  base : ∃ node, fs.node record.base = some node ∧ node.rev ≠ none
  root : record.root = record.base ∨ Loose fs.graph record.root

/-- The directories have readable lists, no two of them share one that can be changed, and the nodes
form trees. Transactions do not share what they can change. -/
structure Planted (fs : Filesystem) : Prop where
  lists : ∀ {id node}, fs.node id = some node → node.kind = .dir →
    ∃ entries, ListOf fs node entries ∧ ∀ entry ∈ entries, ProperEntry entry
  owned : ∀ {id other node found key}, fs.node id = some node → fs.node other = some found → id ≠ other →
    node.kind = .dir → found.kind = .dir → node.dataKey = some key → found.dataKey = some key →
    Immutable fs.store key
  forest : Forest fs.graph fs.tops
  txns : ∀ {txn record}, fs.txns.lookup txn = some record → TxnPlanted fs record
  apart : ∀ {txn other record found}, fs.txns.lookup txn = some record → fs.txns.lookup other = some found →
    Loose fs.graph record.root → record.root = found.root → txn = other
  revisions : ∀ root ∈ fs.revisions, ∃ node, fs.node root = some node ∧ node.rev ≠ none

section Vertices

variable {fs next : Filesystem} {id : NodeId} {node : NodeRev} {entries : List Entry}

theorem ListOf.listed (list : ListOf fs node entries) (isDir : node.kind = .dir) :
    fs.listed node = entries := by
  rcases list with ⟨unnamed, rfl⟩ | ⟨key, rep, named, stored, holds⟩
  · rw [Filesystem.listed, isDir, unnamed]
  · rw [Filesystem.listed, isDir, named]
    simp only [holds.contents stored 0, parseEntries_unparseEntries]

theorem listed_file (isFile : node.kind = .file) : fs.listed node = [] := by
  rw [Filesystem.listed, isFile]

theorem listed_empty (unnamed : node.dataKey = none) : fs.listed node = [] := by
  rw [Filesystem.listed, unnamed]
  cases node.kind <;> rfl

/-- Only the kind and the data count. -/
theorem listed_congr {other : NodeRev} (kind : other.kind = node.kind)
    (data : node.kind = .dir → other.dataKey = node.dataKey) : fs.listed other = fs.listed node := by
  cases isKind : node.kind with
  | file => rw [listed_file isKind, listed_file (kind.trans isKind)]
  | dir => rw [Filesystem.listed, Filesystem.listed, kind, data isKind]

theorem graph_some : fs.graph id = some (fs.vertex node) ↔ ∃ found, fs.node id = some found ∧
    fs.vertex found = fs.vertex node := by
  rw [Filesystem.graph, Option.map_eq_some_iff]

theorem graph_of_node (found : fs.node id = some node) : fs.graph id = some (fs.vertex node) := by
  rw [Filesystem.graph, found, Option.map_some]

theorem graph_none : fs.graph id = none ↔ fs.node id = none := by
  rw [Filesystem.graph, Option.map_eq_none_iff]

theorem exists_vertex : (∃ vertex, fs.graph id = some vertex) ↔ ∃ node, fs.node id = some node := by
  constructor
  · rintro ⟨vertex, present⟩
    obtain ⟨node, found, -⟩ := Option.map_eq_some_iff.mp present
    exact ⟨node, found⟩
  · rintro ⟨node, found⟩
    exact ⟨_, graph_of_node found⟩

theorem loose_iff : Loose fs.graph id ↔ ∃ node, fs.node id = some node ∧ node.rev = none := by
  constructor
  · rintro ⟨vertex, present, flag⟩
    obtain ⟨node, found, rfl⟩ := Option.map_eq_some_iff.mp present
    exact ⟨node, found, Option.isSome_eq_false_iff.mp flag |> Option.isNone_iff_eq_none.mp⟩
  · rintro ⟨node, found, mutable⟩
    exact ⟨_, graph_of_node found, by rw [Filesystem.vertex, mutable]; rfl⟩

theorem not_loose (found : fs.node id = some node) (committed : node.rev ≠ none) : ¬ Loose fs.graph id := by
  intro loose
  obtain ⟨other, stored, mutable⟩ := loose_iff.mp loose
  rw [found] at stored
  cases stored
  exact committed mutable

theorem loose_node (found : fs.node id = some node) : Loose fs.graph id ↔ node.rev = none := by
  rw [loose_iff, found]
  exact ⟨fun ⟨_, same, mutable⟩ => Option.some.inj same ▸ mutable, fun mutable => ⟨node, rfl, mutable⟩⟩

theorem graph_putNode (fs : Filesystem) (id : NodeId) (node : NodeRev) :
    (fs.putNode id node).graph = Function.update fs.graph id (some (fs.vertex node)) := by
  funext other
  rw [Filesystem.graph, Filesystem.node_putNode]
  by_cases same : other = id
  · subst same
    rw [if_pos rfl, Function.update_self, Option.map_some]
    rfl
  · rw [if_neg same, Function.update_of_ne same]
    rfl

/-- A node and its list are as they were. -/
theorem graph_same (same : next.node id = fs.node id)
    (list : ∀ node, fs.node id = some node → node.kind = .dir → next.listed node = fs.listed node) :
    next.graph id = fs.graph id := by
  rw [Filesystem.graph, Filesystem.graph, same]
  cases found : fs.node id with
  | none => rfl
  | some node =>
      rw [Option.map_some, Option.map_some, Filesystem.vertex, Filesystem.vertex]
      cases isKind : node.kind with
      | file => rw [listed_file isKind, listed_file isKind]
      | dir => rw [list node found isKind]

theorem ListOf.keeps (list : ListOf fs node entries)
    (keeps : ∀ key, node.dataKey = some key → KeepsList fs.store next.store key) : ListOf next node entries := by
  rcases list with ⟨unnamed, rfl⟩ | ⟨key, rep, named, stored, holds⟩
  · exact Or.inl ⟨unnamed, rfl⟩
  · obtain ⟨rep', stored', holds'⟩ := keeps key named rep entries stored holds
    exact Or.inr ⟨key, rep', named, stored', holds'⟩

theorem ListOf.congr (list : ListOf fs node entries) {other : NodeRev} (data : other.dataKey = node.dataKey) :
    ListOf fs other entries := by
  rw [ListOf, data]
  exact list

theorem Planted.node_of_tops (planted : Planted fs) {root : NodeId} (isTop : root ∈ fs.tops) :
    ∃ node, fs.node root = some node := by
  obtain ⟨txn, record, stored, rfl⟩ := isTop
  obtain ⟨⟨node, found, -⟩, same | loose⟩ := planted.txns stored
  · exact ⟨node, same ▸ found⟩
  · obtain ⟨vertex, present, -⟩ := loose
    exact exists_vertex.mp ⟨vertex, present⟩

theorem edge_iff {name : Bytes} {child : NodeId} : Edge fs.graph id name child ↔
    ∃ node, fs.node id = some node ∧ childOf (fs.listed node) name = some child := by
  constructor
  · rintro ⟨vertex, present, isChild⟩
    obtain ⟨node, found, rfl⟩ := Option.map_eq_some_iff.mp present
    exact ⟨node, found, isChild⟩
  · rintro ⟨node, found, isChild⟩
    exact ⟨_, graph_of_node found, isChild⟩

end Vertices

section Names

variable {fs : Filesystem} {entries : List Entry} {name : Bytes} {child : NodeId}

theorem childOf_tweakEntry (entries : List Entry) (name : Bytes) {child : NodeId} (nonempty : child ≠ [])
    (within : WithinLimit child) :
    childOf (tweakEntry entries name (unparseId child)) = Function.update (childOf entries) name (some child) := by
  funext other
  rw [childOf, findDirEntry_tweakEntry]
  by_cases same : other = name
  · subst same
    rw [Function.update_self, Function.update_self, Option.bind_some, parseId_unparseId child nonempty,
      if_pos within]
  · rw [Function.update_of_ne same, Function.update_of_ne same]
    rfl

theorem childOf_loseEntry (distinct : DistinctNames entries) (name : Bytes) :
    childOf (loseEntry entries name) = Function.update (childOf entries) name none := by
  funext other
  rw [childOf, distinct.findDirEntry_loseEntry]
  by_cases same : other = name
  · subst same
    rw [Function.update_self, Function.update_self, Option.bind_none]
  · rw [Function.update_of_ne same, Function.update_of_ne same]
    rfl

theorem mem_of_findDirEntry {text : Bytes} (found : findDirEntry entries name = some text) :
    (name, text) ∈ entries := by
  induction entries with
  | nil => cases found
  | cons entry rest ih =>
      rw [findDirEntry_cons] at found
      split at found
      · next same =>
          cases found
          rw [← same]
          exact List.mem_cons_self
      · exact List.mem_cons_of_mem entry (ih found)

theorem mem_tweakEntry {name id : Bytes} {entry : Entry} (member : entry ∈ tweakEntry entries name id) :
    entry ∈ entries ∨ entry = (name, id) := by
  have replaced (entries : List Entry) (member : entry ∈ replaceEntry entries name id) :
      entry ∈ entries ∨ entry = (name, id) := by
    induction entries with
    | nil => exact Or.inl member
    | cons first rest ih =>
        rw [replaceEntry_cons] at member
        split at member
        · rcases List.mem_cons.mp member with same | later
          · exact Or.inr same
          · exact Or.inl (List.mem_cons_of_mem first later)
        · rcases List.mem_cons.mp member with rfl | later
          · exact Or.inl List.mem_cons_self
          · exact (ih later).imp_left (List.mem_cons_of_mem first)
  rw [tweakEntry_eq] at member
  split at member
  · exact (List.mem_cons.mp member).symm
  · exact replaced entries member

/-- Every entry stands for a child. -/
theorem childOf_of_mem (distinct : DistinctNames entries) {entry : Entry} (member : entry ∈ entries)
    (isChild : parseId entry.2 = some child) : childOf entries entry.1 = some child := by
  rw [childOf, ← isChild]
  have found : findDirEntry entries entry.1 = some entry.2 := by
    induction entries with
    | nil => cases member
    | cons first rest ih =>
        rw [findDirEntry_cons]
        rcases List.mem_cons.mp member with rfl | later
        · rw [if_pos rfl]
        · obtain ⟨fresh, distinct⟩ := List.nodup_cons.mp distinct
          rw [if_neg, ih distinct later]
          intro same
          exact fresh (same ▸ List.mem_map_of_mem later)
  rw [found, Option.bind_some]

/-- The names and ids of children. -/
def namedChildren (entries : List Entry) : List (Bytes × NodeId) :=
  entries.filterMap fun entry => (parseId entry.2).map fun id => (entry.1, id)

theorem mem_namedChildren : (name, child) ∈ namedChildren entries ↔
    ∃ text, (name, text) ∈ entries ∧ parseId text = some child := by
  simp only [namedChildren, List.mem_filterMap, Option.map_eq_some_iff, Prod.mk.injEq]
  constructor
  · rintro ⟨⟨_, text⟩, member, id, isId, rfl, rfl⟩
    exact ⟨text, member, isId⟩
  · rintro ⟨text, member, isId⟩
    exact ⟨(name, text), member, child, isId, rfl, rfl⟩

theorem namedChildren_names (entries : List Entry) :
    ((namedChildren entries).map Prod.fst).Sublist (entries.map Prod.fst) := by
  induction entries with
  | nil => exact List.Sublist.refl []
  | cons entry rest ih =>
      rw [namedChildren, List.filterMap_cons, List.map_cons]
      cases parseId entry.2 with
      | none => exact ih.cons _
      | some id => exact ih.cons_cons _

theorem ListOf.children {id : NodeId} {node : NodeRev} (list : ListOf fs node entries)
    (found : fs.node id = some node) (isDir : node.kind = .dir) :
    ListsChildren fs.graph id (namedChildren entries) := by
  refine ⟨list.distinct.sublist (namedChildren_names entries), fun {name child} => ?_⟩
  rw [mem_namedChildren, edge_iff]
  constructor
  · rintro ⟨text, member, isId⟩
    refine ⟨node, found, ?_⟩
    rw [list.listed isDir]
    exact childOf_of_mem list.distinct member isId
  · rintro ⟨other, stored, isChild⟩
    rw [found] at stored
    cases stored
    rw [list.listed isDir] at isChild
    obtain ⟨text, isText, isId⟩ := Option.bind_eq_some_iff.mp isChild
    exact ⟨text, mem_of_findDirEntry isText, isId⟩

theorem listsChildren_nil {id : NodeId} {node : NodeRev} (found : fs.node id = some node)
    (isFile : node.kind = .file) : ListsChildren fs.graph id [] := by
  refine ⟨List.nodup_nil, fun {name child} => ⟨fun impossible => absurd impossible List.not_mem_nil, fun edge => ?_⟩⟩
  obtain ⟨other, stored, isChild⟩ := edge_iff.mp edge
  rw [found] at stored
  cases stored
  rw [listed_file isFile] at isChild
  cases isChild

end Names

end Subversion.Fs
