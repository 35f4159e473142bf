/-
This file shows that a path is opened exactly when the tree of the root has it.
-/

import Subversion.Fs.VersionRuns

namespace Subversion.Fs

open Delta SharedTrees Transactions VersionedTrees

section Reading

variable {streams : List Trail.Stream} {fs : Filesystem} {node : NodeRev} {entries : List Entry} {here : NodeId}

theorem dirEntriesSkel_run (found : fs.node here = some node) (isDir : node.kind = .dir) (list : ListOf fs node entries)
    (depth : Nat) : Trail.dirEntriesSkel (depth + 1) here fs = .ok (entries, fs) := by
  simp only [Trail.dirEntriesSkel, bind_ok, Trail.getNodeRevision_ok, ensure_ok]
  refine ⟨node, fs, ⟨found, rfl⟩, (), fs, ⟨isDir, rfl⟩, ?_⟩
  rw [Trail.getDirEntries, isDir]
  rcases list with ⟨unnamed, rfl⟩ | ⟨key, rep, named, stored, holds⟩
  · rw [unnamed]
    rfl
  · rw [named]
    exact readStore_ok.mpr ⟨by simp only [holds.contents stored depth, parseEntries_unparseEntries], rfl⟩

/-- A child of a directory is found under its name. -/
theorem entryNode_edge (planted : Planted fs) {name : Bytes} {child : NodeId}
    (edge : Edge fs.graph here name child) (depth : Nat) :
    IsDirectory fs here ∧ entryNode fs (depth + 1) here name = .ok (some child) := by
  obtain ⟨node, found, isChild⟩ := edge_iff.mp edge
  obtain ⟨there, present⟩ := exists_vertex.mp (planted.forest.closed edge)
  cases isKind : node.kind with
  | file =>
      rw [listed_file isKind] at isChild
      cases isChild
  | dir =>
      obtain ⟨entries, list, proper⟩ := planted.lists found isKind
      rw [list.listed isKind] at isChild
      obtain ⟨text, isText, isId⟩ := Option.bind_eq_some_iff.mp isChild
      have listed := dirEntriesSkel_run found isKind list depth
      have single : isSinglePathComponent name = true := (proper _ (mem_of_findDirEntry isText)).name
      have entered : Trail.openEntry name text fs = .ok (child, fs) := by
        simp only [Trail.openEntry, bind_ok, ensure_ok, readStore_ok, Trail.getNodeRevision_ok, pure_ok]
        exact ⟨(), fs, ⟨single, rfl⟩, child, fs, ⟨entryId_ok.mpr isId, rfl⟩, there, fs, ⟨present, rfl⟩, rfl, rfl⟩
      refine ⟨by rw [IsDirectory, found, Option.map_some, isKind], ?_⟩
      rw [entryNode, listed]
      simp only [isText, reduceCtorEq, if_false, openChild_run, listed, entered]
      rfl

/-- Names that lead down the tree are found one after the other. -/
theorem walk_follows (planted : Planted fs) (depth : Nat) (names : List Bytes) :
    ∀ {here : NodeId} {parents : ParentPath} {tree inner : Tree Bytes Face}, parents.node = some here →
      Shows fs.graph here tree → tree.follow names = some inner →
      ∃ found last, walk fs (depth + 1) false here parents names = .ok found ∧ found.node = some last ∧
        Shows fs.graph last inner := by
  induction names with
  | nil =>
      intro here parents tree inner bottom shows follows
      cases follows
      exact ⟨parents, here, rfl, bottom, shows⟩
  | cons name names ih =>
      intro here parents tree inner bottom shows follows
      obtain ⟨branch, isBranch, rest⟩ : ∃ branch, tree.branch name = some branch ∧ branch.follow names = some inner := by
        cases tree with
        | node label below => exact Option.bind_eq_some_iff.mp follows
      obtain ⟨child, edge, shown⟩ := shows.edge_of_branch isBranch
      obtain ⟨directory, entry⟩ := entryNode_edge planted edge depth
      rw [walk, if_pos directory, entry]
      exact ih rfl shown rest

/-- The tree of a root. -/
def rootTree (versions : Versions Bytes Face) : Root → Option (Tree Bytes Face)
  | .revision rev => versions.done[rev]?
  | .txn txn => versions.drafts txn
  | .id => none

theorem Depicts.top {versions : Versions Bytes Face} (depicts : Depicts fs versions) {root : Root} {top : NodeId}
    (isTop : TopOf fs root top) : ∃ tree, rootTree versions root = some tree ∧ Shows fs.graph top tree := by
  cases isTop with
  | revision stored => exact depicts.revision stored
  | txn stored => exact depicts.draft stored

theorem getTxn_run {txn : Nat} {record : Txn} (stored : fs.txns.lookup txn = some record)
    (root : WithinLimit record.root) (base : WithinLimit record.base) : Trail.getTxn txn fs = .ok (record, fs) := by
  rw [Trail.getTxn, stored]
  exact if_pos ⟨root, base⟩

theorem revGetRoot_run {rev : Nat} {top : NodeId} (stored : fs.revisions[rev]? = some top)
    (within : WithinLimit top) : Trail.revGetRoot rev fs = .ok (top, fs) := by
  rw [Trail.revGetRoot, stored]
  exact if_pos within

/-- A root that has a tree can be opened. -/
theorem rootNode_run {versions : Versions Bytes Face} (tidy : Tidy streams fs) (depicts : Depicts fs versions)
    {root : Root} {tree : Tree Bytes Face} (isTree : rootTree versions root = some tree) :
    ∃ top, Trail.rootNode root fs = .ok (top, fs) ∧ Shows fs.graph top tree := by
  have present {top : NodeId} {tree : Tree Bytes Face} (shows : Shows fs.graph top tree) :
      ∃ node, fs.node top = some node := by
    cases shows with
    | node found _ _ => exact exists_vertex.mp ⟨_, found⟩
  have finish {top : NodeId} {node : NodeRev} (found : fs.node top = some node) :
      (do
        let _ ← Trail.getNodeRevision top
        pure top : Trail NodeId) fs = .ok (top, fs) :=
    bind_ok.mpr ⟨node, fs, Trail.getNodeRevision_ok.mpr ⟨found, rfl⟩, pure_ok.mpr ⟨rfl, rfl⟩⟩
  cases root with
  | id => cases isTree
  | revision rev =>
      obtain ⟨small, rfl⟩ := List.getElem?_eq_some_iff.mp isTree
      have inside : rev < fs.revisions.length := depicts.revisions.length_eq ▸ small
      have shows := depicts.revisions.get inside small
      obtain ⟨node, found⟩ := present shows
      refine ⟨fs.revisions[rev], ?_, shows⟩
      exact bind_ok.mpr ⟨_, fs, revGetRoot_run (List.getElem?_eq_getElem inside) (tidy.proper found).2, finish found⟩
  | txn txn =>
      have related := depicts.txns txn
      rw [show versions.drafts txn = some tree from isTree] at related
      generalize stored : fs.txns.lookup txn = found at related
      cases related with
      | @some record _ shows =>
          obtain ⟨node, found⟩ := present shows
          obtain ⟨base, isBase, -⟩ := (tidy.planted.txns stored).base
          refine ⟨record.root, ?_, shows⟩
          exact bind_ok.mpr ⟨record, fs, getTxn_run stored (tidy.proper found).2 (tidy.proper isBase).2,
            bind_ok.mpr ⟨record.root, fs, pure_ok.mpr ⟨rfl, rfl⟩, finish found⟩⟩

theorem isDirectory_iff {inner : Tree Bytes Face} (shows : Shows fs.graph here inner) :
    IsDirectory fs here ↔ inner.label.kind = .dir := by
  cases shows with
  | node found _ _ =>
      obtain ⟨node, stored, rfl⟩ := Option.map_eq_some_iff.mp found
      rw [IsDirectory, stored, Option.map_some, Option.some_inj]
      rfl

theorem openPath_of_opened {depth : Nat} {root : Root} {path : Bytes} {result : ParentPath × Filesystem}
    (found : opened fs depth false root path = .ok result) : Trail.openPath depth root path false fs = .ok result := by
  cases ran : Trail.openPath depth root path false fs with
  | error error =>
      rw [opened, ran] at found
      cases found
  | ok other =>
      rw [opened, ran] at found
      cases found
      rfl

/-- A slash at the end asks for a directory. -/
theorem walkPath_slashed {depth : Nat} {path : Bytes} {top last : NodeId} {found : ParentPath} {inner : Tree Bytes Face}
    (followed : walkPath fs depth false top (.root top) path = .ok found) (bottom : found.node = some last)
    (shows : Shows fs.graph last inner) (slash : EndsInSlash path) : inner.label.kind = .dir := by
  rw [walkPath] at followed
  obtain ⟨same, -, checked⟩ := bind_eq_ok followed
  rw [if_pos slash] at checked
  obtain rfl := requireDirectory_ok checked
  rw [requireDirectory, bottom] at checked
  by_cases directory : IsDirectory fs last
  · exact (isDirectory_iff shows).mp directory
  · dsimp only at checked
    rw [if_neg directory] at checked
    cases checked

/-- In every state, a path is opened exactly when the tree of the root has it, and it leads to the node
that stands for what the tree has there. -/
theorem paths_are_followed {meets : Filesystem → FsOp → Prop} {start : String}
    {state : Filesystem × List Trail.Stream} (direct : ∀ fs op, meets fs op → op.Direct fs)
    (run : FsRun meets (Trail.dagInitFs start, []) state) {versions : Versions Bytes Face}
    (depicts : Depicts state.1 versions) {root : Root} {tree : Tree Bytes Face}
    (isTree : rootTree versions root = some tree) (path : Bytes) (depth : Nat) (inner : Tree Bytes Face) :
    (∃ parents last, Trail.openPath (depth + 1) root path false state.1 = .ok (parents, state.1) ∧
      parents.node = some last ∧ Shows state.1.graph last inner) ↔
    tree.follow (components path) = some inner ∧ (EndsInSlash path → inner.label.kind = .dir) := by
  obtain ⟨_, -, settled⟩ := run.settled_start direct
  have planted := settled.tidy.planted
  obtain ⟨top, started, shows⟩ := rootNode_run settled.tidy depicts isTree
  have tree' : root ≠ .id := by
    rintro rfl
    cases isTree
  have whole : opened state.1 (depth + 1) false root path =
      (walkPath state.1 (depth + 1) false top (.root top) path).map fun found => (found, state.1) := by
    rw [openPath_walks state.1 (depth + 1) false root tree' path, started]
    rfl
  constructor
  · rintro ⟨parents, last, ran, bottom, shown⟩
    obtain ⟨found, followed, same⟩ := map_ok.mp (whole.symm.trans (congrArg outcome ran))
    cases same
    obtain ⟨other, follows, inside⟩ := ((walkPath_chain followed).1.leads planted bottom).way bottom |>.follow shows
    obtain rfl := inside.unique shown
    exact ⟨follows, walkPath_slashed followed bottom shown⟩
  · rintro ⟨follows, slashed⟩
    obtain ⟨found, last, walked, bottom, shown⟩ := walk_follows planted depth (components path)
      (show (ParentPath.root top).node = some top from rfl) shows follows
    have followed : walkPath state.1 (depth + 1) false top (.root top) path = .ok found := by
      rw [walkPath, walked]
      show (if EndsInSlash path then requireDirectory state.1 found else .ok found) = _
      by_cases slash : EndsInSlash path
      · rw [if_pos slash, requireDirectory, bottom]
        exact if_pos ((isDirectory_iff shown).mpr (slashed slash))
      · rw [if_neg slash]
    refine ⟨found, last, openPath_of_opened ?_, bottom, shown⟩
    rw [whole, followed]
    rfl

/-- The committed file is found from the root of its revision. -/
theorem paths_are_followed_first : ∃ parents last, Trail.openPath 9 (.revision 1) [47, 97]
    false (startedWith firstEdits).1 = .ok (parents, (startedWith firstEdits).1) ∧ parents.node = some last := by
  have stored := editsLeave.root
  have found := editsLeave.rootNode
  have isChild : childOf ((startedWith firstEdits).1.listed ⟨.dir, some 1, none, none, some 0, none⟩) [97] =
      some [1, 1] := by decide +kernel
  obtain ⟨versions, -, settled⟩ := firstEdits_direct.settled_start fun _ _ direct => direct
  obtain ⟨tree, isTree, shows⟩ := settled.depicts.revision stored
  obtain ⟨inner, isBranch, -⟩ := shows.child (edge_iff.mpr ⟨_, found, isChild⟩)
  have follows : tree.follow (components [47, 97]) = some inner := by
    have parts : components [47, 97] = [] ++ [[97]] := by decide
    rw [parts, Tree.follow_concat]
    exact isBranch
  obtain ⟨parents, last, ran, bottom, -⟩ := (paths_are_followed (fun _ _ direct => direct) firstEdits_direct
    settled.depicts (show rootTree versions (.revision 1) = some tree from isTree) [47, 97] 8 inner).mpr
    ⟨follows, fun slash => absurd slash (by decide)⟩
  exact ⟨parents, last, ran, bottom⟩

end Reading

end Subversion.Fs
