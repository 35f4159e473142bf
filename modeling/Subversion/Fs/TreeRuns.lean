/-
This file shows that a filesystem behaves as a sequence of trees, with one draft for each transaction.
-/

import Subversion.Fs.PlantedEdits
import Subversion.Lib.VersionedTrees
import Mathlib.Data.List.Forall2

namespace Subversion.Fs

open Delta SharedTrees Transactions VersionedTrees

/-- The roots of revisions stand for the trees that are done, those of transactions for drafts. -/
structure Depicts (fs : Filesystem) (versions : Versions Bytes Face) : Prop where
  revisions : List.Forall₂ (Shows fs.graph) fs.revisions versions.done
  txns : ∀ txn, Option.Rel (fun record tree => Shows fs.graph record.root tree) (fs.txns.lookup txn)
    (versions.drafts txn)

section Depicting

variable {streams : List Trail.Stream} {fs middle next : Filesystem} {versions : Versions Bytes Face} {txn : Nat}
  {record : Txn}

theorem Depicts.draft (depicts : Depicts fs versions) (stored : fs.txns.lookup txn = some record) :
    ∃ tree, versions.drafts txn = some tree ∧ Shows fs.graph record.root tree := by
  have related := depicts.txns txn
  rw [stored] at related
  cases isTree : versions.drafts txn with
  | none =>
      rw [isTree] at related
      cases related
  | some tree =>
      rw [isTree] at related
      cases related with
      | some shows => exact ⟨tree, rfl, shows⟩

theorem Depicts.revision (depicts : Depicts fs versions) {rev : Nat} {root : NodeId}
    (stored : fs.revisions[rev]? = some root) :
    ∃ tree, versions.done[rev]? = some tree ∧ Shows fs.graph root tree := by
  obtain ⟨small, rfl⟩ := List.getElem?_eq_some_iff.mp stored
  have small' : rev < versions.done.length := depicts.revisions.length_eq ▸ small
  exact ⟨versions.done[rev], List.getElem?_eq_getElem small', depicts.revisions.get small small'⟩

/-- The depicted trees are those of the nodes. -/
theorem Depicts.same (depicts : Depicts fs versions) (graph : next.graph = fs.graph)
    (txns : next.txns = fs.txns) (revisions : next.revisions = fs.revisions) : Depicts next versions := by
  obtain ⟨done, drafts⟩ := depicts
  rw [← graph] at done drafts
  rw [← revisions] at done
  rw [← txns] at drafts
  exact ⟨done, drafts⟩

theorem Planted.revision_frozen (planted : Planted fs) {root : NodeId} (member : root ∈ fs.revisions) :
    ¬ Loose fs.graph root := by
  obtain ⟨node, found, committed⟩ := planted.revisions root member
  exact not_loose found committed

theorem rel_imp {A B : Type} {first second : A → B → Prop} {a : Option A} {b : Option B}
    (related : Option.Rel first a b) (implies : ∀ a' b', a = some a' → first a' b' → second a' b') :
    Option.Rel second a b := by
  cases related with
  | none => exact .none
  | some holds => exact .some (implies _ _ rfl holds)

theorem Depicts.moved (depicts : Depicts fs versions) {top : NodeId} (unchanged : Unchanged streams fs middle)
    (moves : Moves fs middle txn record top) : Depicts middle versions := by
  constructor
  · rw [unchanged.revisions]
    exact depicts.revisions.imp fun _ _ => unchanged.shows
  · intro other
    by_cases same : other = txn
    · obtain ⟨tree, isTree, shows⟩ := depicts.draft moves.before
      rw [same, moves.after, isTree]
      exact .some (moves.shows shows)
    · rw [moves.others other same]
      exact rel_imp (depicts.txns other) fun _ _ _ => unchanged.shows

/-- What a change of one node does not concern. -/
theorem Depicts.keptRevisions (depicts : Depicts fs versions) (tidy : Tidy streams fs) {id : NodeId}
    (loose : Loose fs.graph id) {change : Tree Bytes Face → Tree Bytes Face}
    (alters : Alters streams fs next id change) :
    List.Forall₂ (Shows next.graph) next.revisions versions.done := by
  rw [alters.revisions]
  refine ((List.forall₂_and_left _ _).mpr ⟨fun root => tidy.planted.revision_frozen, depicts.revisions⟩).imp
    fun root tree ⟨frozen, shows⟩ => alters.apart shows (fun reach => ?_) (Or.inl frozen)
  exact tidy.planted.forest.reach_frozen frozen reach loose

/-- A change of a node that no draft has. -/
theorem Depicts.apart (depicts : Depicts fs versions) (tidy : Tidy streams fs) {id : NodeId}
    (loose : Loose fs.graph id) {change : Tree Bytes Face → Tree Bytes Face}
    (alters : Alters streams fs next id change)
    (apart : ∀ txn record, fs.txns.lookup txn = some record → ¬ Reach fs.graph record.root id) :
    Depicts next versions := by
  refine ⟨depicts.keptRevisions tidy loose alters, fun other => ?_⟩
  rw [alters.txns]
  exact rel_imp (depicts.txns other) fun found tree isFound shows =>
    alters.apart shows (apart other found isFound) (Or.inr ⟨other, found, isFound, rfl⟩)

/-- A change of one node is a change of the one draft that has it. -/
theorem Depicts.edit (depicts : Depicts fs versions) (tidy : Tidy streams fs)
    (stored : fs.txns.lookup txn = some record) {names : List Bytes} {id : NodeId}
    (way : Way fs.graph record.root names id) (loose : Loose fs.graph id)
    {change : Tree Bytes Face → Tree Bytes Face} (alters : Alters streams fs next id change) :
    ∃ versions', versions.act (.edit txn names change) = some versions' ∧ Depicts next versions' := by
  have planted := tidy.planted
  have forest := planted.forest
  have isTop : record.root ∈ fs.tops := ⟨txn, record, stored, rfl⟩
  obtain ⟨tree, isTree, shows⟩ := depicts.draft stored
  obtain ⟨inner, isInner, -⟩ := way.follow shows
  refine ⟨versions.setDraft txn (some (tree.modify change names)), ?_,
    depicts.keptRevisions tidy loose alters, fun other => ?_⟩
  · simp only [Versions.act, isTree, isInner, Option.bind_eq_bind, Option.bind_some]
    rfl
  · rw [alters.txns]
    by_cases same : other = txn
    · rw [same, stored, setDraft_this]
      exact .some (alters.along way shows)
    · rw [setDraft_other _ same]
      refine rel_imp (depicts.txns other) fun found tree isFound shows => ?_
      have isOther : found.root ∈ fs.tops := ⟨other, found, isFound, rfl⟩
      refine alters.apart shows (fun reach => same ?_) (Or.inr isOther)
      have roots := forest.root_unique isOther isTop loose reach way.reach
      exact planted.apart isFound stored (forest.loose_of_reach reach loose) roots

end Depicting

section Opening

variable {fs next : Filesystem} {depth : Nat} {root : Root} {path : Bytes} {lastOptional : Bool}
  {parents : ParentPath}

theorem openPath_chain (tree : root ≠ .id) (ran : Trail.openPath depth root path lastOptional fs = .ok (parents, next)) :
    next = fs ∧ (parents.node = none → lastOptional = true) ∧
      ∃ top, Trail.rootNode root fs = .ok (top, fs) ∧ Chain fs depth top parents (components path) := by
  have walked : opened fs depth lastOptional root path = .ok (parents, next) := congrArg outcome ran
  rw [openPath_walks fs depth lastOptional root tree] at walked
  cases started : Trail.rootNode root fs with
  | error error =>
      rw [started] at walked
      cases walked
  | ok result =>
      obtain ⟨top, whole⟩ := result
      obtain ⟨rfl, -⟩ := rootNode_node fs started
      rw [started] at walked
      obtain ⟨last, followed, same⟩ := map_ok.mp (show (walkPath whole depth lastOptional top (.root top) path).map
        (fun found => (found, whole)) = .ok (parents, next) from walked)
      cases same
      obtain ⟨chain, tolerated⟩ := walkPath_chain followed
      exact ⟨rfl, tolerated, top, rfl, chain⟩

/-- The node that a path begins at. -/
inductive TopOf (fs : Filesystem) : Root → NodeId → Prop where
  | revision {rev : Nat} {top : NodeId} (stored : fs.revisions[rev]? = some top) : TopOf fs (.revision rev) top
  | txn {txn : Nat} {record : Txn} (stored : fs.txns.lookup txn = some record) : TopOf fs (.txn txn) record.root

theorem rootNode_topOf {top : NodeId} (ran : Trail.rootNode root fs = .ok (top, next)) : TopOf fs root top := by
  unfold Trail.rootNode at ran
  cases root with
  | revision rev =>
      obtain ⟨id, middle, got, rest⟩ := bind_ok.mp ran
      obtain ⟨-, last, -, same⟩ := bind_ok.mp rest
      rw [(pure_ok.mp same).1]
      exact .revision (Trail.revGetRoot_ok got).1
  | txn txn =>
      obtain ⟨record, middle, got, rest⟩ := bind_ok.mp ran
      obtain ⟨id, _, isRoot, rest'⟩ := bind_ok.mp rest
      obtain ⟨-, last, -, same⟩ := bind_ok.mp rest'
      rw [(pure_ok.mp same).1, (pure_ok.mp isRoot).1]
      exact .txn (Trail.getTxn_ok got).1
  | id =>
      obtain ⟨_, _, impossible, _⟩ := bind_ok.mp ran
      cases impossible

/-- What a path leads to, and the names on the way. -/
theorem openPath_leads (planted : Planted fs) (tree : root ≠ .id)
    (ran : Trail.openPath depth root path false fs = .ok (parents, next)) :
    next = fs ∧ ∃ top here, TopOf fs root top ∧ parents.node = some here ∧ Leads fs top parents (components path) := by
  obtain ⟨rfl, tolerated, top, started, chain⟩ := openPath_chain tree ran
  cases bottom : parents.node with
  | none => cases tolerated bottom
  | some here => exact ⟨rfl, top, here, rootNode_topOf started, rfl, chain.leads planted bottom⟩

/-- The directory that the last name of a path stands in. -/
theorem openPath_parent (planted : Planted fs) (tree : root ≠ .id) {found : Option NodeId} {name : Bytes}
    (ran : Trail.openPath depth root path lastOptional fs = .ok (.child found name parents, next)) :
    next = fs ∧ ∃ top names, TopOf fs root top ∧ components path = names ++ [name] ∧ Leads fs top parents names := by
  obtain ⟨rfl, -, top, started, chain⟩ := openPath_chain tree ran
  generalize components path = whole at chain
  cases chain with
  | child above bottom directory entry =>
      exact ⟨rfl, top, _, rootNode_topOf started, rfl, above.leads planted bottom⟩

end Opening

section Editing

variable {streams : List Trail.Stream} {fs middle next : Filesystem} {versions : Versions Bytes Face}
  {depth txn : Nat} {path : Bytes}

/-- A place in the draft of a transaction that can be changed. -/
structure Reaches (streams : List Trail.Stream) (fs middle : Filesystem) (versions : Versions Bytes Face) (txn : Nat)
    (names : List Bytes) (id : NodeId) (record : Txn) : Prop where
  unchanged : Unchanged streams fs middle
  depicts : Depicts middle versions
  stored : middle.txns.lookup txn = some record
  way : Way middle.graph record.root names id
  loose : Loose middle.graph id

theorem Depicts.makePathMutable (depicts : Depicts fs versions) (tidy : Tidy streams fs) {top id : NodeId}
    {parents : ParentPath} {names : List Bytes} (isTop : TopOf fs (.txn txn) top) (leads : Leads fs top parents names)
    (made : Trail.makePathMutable depth (.txn txn) path parents fs = .ok (id, middle)) :
    ∃ record, Reaches streams fs middle versions txn names id record := by
  cases isTop with
  | txn stored =>
      obtain ⟨unchanged, loose, top, moves, way⟩ := tidy.makePathMutable stored leads made
      exact ⟨_, unchanged, depicts.moved unchanged moves, moves.after, way, loose⟩

theorem Reaches.edit {names : List Bytes} {id : NodeId} {record : Txn}
    (reaches : Reaches streams fs middle versions txn names id record) {change : Tree Bytes Face → Tree Bytes Face}
    (alters : Alters streams middle next id change) :
    ∃ versions', versions.act (.edit txn names change) = some versions' ∧ Depicts next versions' :=
  reaches.depicts.edit reaches.unchanged.tidy reaches.stored reaches.way reaches.loose alters

/-- The node that the place has in the draft. -/
theorem Reaches.follow {names : List Bytes} {id : NodeId} {record : Txn}
    (reaches : Reaches streams fs middle versions txn names id record) :
    ∃ tree inner, versions.drafts txn = some tree ∧ tree.follow names = some inner ∧ Shows middle.graph id inner := by
  obtain ⟨tree, isTree, shows⟩ := reaches.depicts.draft reaches.stored
  obtain ⟨inner, isInner, inside⟩ := reaches.way.follow shows
  exact ⟨tree, inner, isTree, isInner, inside⟩

end Editing

/-- What an operation does with the trees. -/
inductive FsOp.Acts (versions : Versions Bytes Face) : FsOp → Action Bytes Face → Prop where
  | changeNodeProp {txn : Nat} {path name : Bytes} {value : Option Bytes} (key : Nat) :
      Acts versions (.changeNodeProp (.txn txn) path name value)
        (.edit txn (components path) (Tree.relabel fun face => { face with propKey := some key }))
  | make {txn : Nat} {path name : Bytes} {kind : NodeKind} {names : List Bytes} {tree : Tree Bytes Face}
      (parts : components path = names ++ [name]) (isTree : versions.drafts txn = some tree)
      (absent : tree.follow (components path) = none) :
      Acts versions (.make (.txn txn) path kind) (.edit txn names (Tree.graft name (some (newLeaf kind))))
  | delete {txn : Nat} {path name : Bytes} {deleteTree : Bool} {names : List Bytes} {tree branch : Tree Bytes Face}
      (parts : components path = names ++ [name]) (isTree : versions.drafts txn = some tree)
      (present : tree.follow (components path) = some branch)
      (empty : deleteTree = false → ∀ other, branch.branch other = none) :
      Acts versions (.delete (.txn txn) path deleteTree) (.edit txn names (Tree.graft name none))
  | copy {rev txn : Nat} {fromPath toPath name : Bytes} {preserveHistory : Bool} {names : List Bytes}
      {tree branch : Tree Bytes Face} (isTree : versions.done[rev]? = some tree)
      (isBranch : tree.follow (components fromPath) = some branch) (parts : components toPath = names ++ [name]) :
      Acts versions (.copy (.revision rev) fromPath (.txn txn) toPath preserveHistory)
        (.edit txn names (Tree.graft name (some branch)))
  | applyTextdelta {root : Root} {path : Bytes} : Acts versions (.applyTextdelta root path) .stay
  | writeContents {stream : Trail.Stream} {bytes : Bytes} : Acts versions (.writeContents stream bytes) .stay
  | finalizeEdits {stream : Trail.Stream} {txn : Nat} {names : List Bytes} (key : Nat) :
      Acts versions (.finalizeEdits stream)
        (.edit txn names (Tree.relabel fun face => { face with textKey := some key }))
  -- no transaction has the file any more, or the edit has been finished before
  | finalizeElsewhere {stream : Trail.Stream} : Acts versions (.finalizeEdits stream) .stay
  | beginTxn {rev txn : Nat} : Acts versions (.beginTxn rev) (.start txn rev)
  | merge {txn rev : Nat} {source : NodeId} : Acts versions (.merge txn source none) (.rebase txn rev)
  | commitTxn {txn : Nat} : Acts versions (.commitTxn txn) (.publish txn)
  | abortTxn {txn : Nat} : Acts versions (.abortTxn txn) (.discard txn)
  | deltify {rev : Nat} {path : Bytes} {doDeltify recursive : Bool} :
      Acts versions (.deltify rev path doDeltify recursive) .stay

section Operations

variable {streams : List Trail.Stream} {fs next : Filesystem} {versions : Versions Bytes Face} {depth : Nat}
  {root : Root} {path : Bytes} {value : Unit}

/-- The operation does with the trees what it should. -/
structure Performs (streams : List Trail.Stream) (versions : Versions Bytes Face) (op : FsOp) (next : Filesystem) :
    Prop where
  tidy : Tidy streams next
  acts : ∃ action versions', op.Acts versions action ∧ versions.act action = some versions' ∧ Depicts next versions'

theorem ensureTxnRoot_ok (ran : Trail.ensureTxnRoot root fs = .ok (value, next)) :
    next = fs ∧ ∃ txn, root = .txn txn := by
  cases root with
  | txn txn => exact ⟨(pure_ok.mp ran).2, txn, rfl⟩
  | revision rev => cases ran
  | id => cases ran

theorem performs_changeNodeProp (tidy : Tidy streams fs) (depicts : Depicts fs versions) {name : Bytes}
    {new : Option Bytes} (ran : Trail.txnBodyChangeNodeProp depth root path name new fs = .ok (value, next)) :
    Performs streams versions (.changeNodeProp root path name new) next := by
  obtain ⟨_, fs, isTxn, opens⟩ := bind_ok.mp ran
  obtain ⟨rfl, txn, rfl⟩ := ensureTxnRoot_ok isTxn
  obtain ⟨parents, _, opened, rest⟩ := bind_ok.mp opens
  obtain ⟨id, middle, made, changes⟩ := bind_ok.mp rest
  obtain ⟨proplist, _, read, rest⟩ := bind_ok.mp changes
  obtain rfl := Trail.reads_getProplist depth id _ _ _ read
  obtain ⟨changed, last, computed, sets⟩ := bind_ok.mp rest
  obtain ⟨-, rfl⟩ := readStore_ok.mp computed
  obtain ⟨rfl, top, here, isTop, bottom, leads⟩ := openPath_leads tidy.planted Root.noConfusion opened
  obtain ⟨record, reaches⟩ := depicts.makePathMutable tidy isTop leads made
  obtain ⟨key, alters⟩ := reaches.unchanged.tidy.setProplist sets
  obtain ⟨versions', acted, after⟩ := reaches.edit alters
  exact ⟨alters.tidy, _, versions', .changeNodeProp key, acted, after⟩

/-- Only in a transaction can a node be made mutable. -/
theorem makePathMutable_txn (planted : Planted fs) (tree : root ≠ .id) {top id : NodeId} {parents : ParentPath}
    {names : List Bytes} (isTop : TopOf fs root top) (leads : Leads fs top parents names)
    (made : Trail.makePathMutable depth root path parents fs = .ok (id, next)) : ∃ txn, root = .txn txn := by
  cases isTop with
  | txn stored => exact ⟨_, rfl⟩
  | revision stored =>
      exact absurd made (makePathMutable_revision planted
        (planted.revision_frozen (List.mem_of_getElem? stored)) leads)

theorem openPath_optional (ran : Trail.openPath depth root path true fs = .ok (parents, next)) : root ≠ .id := by
  rintro rfl
  cases ran

theorem parentOf_ok {parents : ParentPath} {found : ParentPath × Bytes}
    (ran : Trail.parentOf parents fs = .ok (found, next)) :
    next = fs ∧ ∃ node, parents = .child node found.2 found.1 := by
  cases parents with
  | root id => cases ran
  | child node entry parent =>
      obtain ⟨rfl, rfl⟩ := pure_ok.mp ran
      exact ⟨rfl, node, rfl⟩

theorem performs_make (tidy : Tidy streams fs) (depicts : Depicts fs versions) {kind : NodeKind}
    (ran : Trail.txnBodyMake depth root path kind fs = .ok (value, next)) :
    Performs streams versions (.make root path kind) next := by
  have performed (ran : (do
      let parentPath ← Trail.openPath depth root path true
      let fs ← get
      ensure (parentPath.node = none) (Trail.alreadyExists fs.nodes.path root path)
      let found ← Trail.parentOf parentPath
      let parentId ← Trail.makePathMutable depth root path found.1
      let _ ← Trail.makeEntry depth parentId found.2 kind : Trail Unit) fs = .ok (value, next)) :
      Performs streams versions (.make root path kind) next := by
    obtain ⟨parents, _, opened, rest⟩ := bind_ok.mp ran
    have tree := openPath_optional opened
    obtain ⟨_, _, same, checks⟩ := bind_ok.mp rest
    obtain ⟨rfl, rfl⟩ := get_ok.mp same
    obtain ⟨_, _, ensured, splits⟩ := bind_ok.mp checks
    obtain ⟨-, rfl⟩ := ensure_ok.mp ensured
    obtain ⟨⟨above, name⟩, _, isParent, makes⟩ := bind_ok.mp splits
    obtain ⟨rfl, node, rfl⟩ := parentOf_ok isParent
    obtain ⟨parent, middle, made, enters⟩ := bind_ok.mp makes
    obtain ⟨child, last, entered, ends⟩ := bind_ok.mp enters
    obtain ⟨-, rfl⟩ := pure_ok.mp ends
    obtain ⟨rfl, top, names, isTop, parts, leads⟩ := openPath_parent tidy.planted tree opened
    obtain ⟨txn, rfl⟩ := makePathMutable_txn tidy.planted tree isTop leads made
    obtain ⟨record, reaches⟩ := depicts.makePathMutable tidy isTop leads made
    obtain ⟨alters, -, absent⟩ := reaches.unchanged.tidy.makeEntry entered
    obtain ⟨versions', acted, after⟩ := reaches.edit alters
    obtain ⟨tree, inner, isTree, isInner, shows⟩ := reaches.follow
    refine ⟨alters.tidy, _, versions', .make parts isTree ?_, acted, after⟩
    rw [parts, Tree.follow_concat, isInner, Option.bind_some, shows.no_child absent]
  unfold Trail.txnBodyMake at ran
  split at ran
  · obtain ⟨_, fs, isTxn, rest⟩ := bind_ok.mp ran
    obtain ⟨rfl, -⟩ := ensureTxnRoot_ok isTxn
    exact performed rest
  · exact performed ran

theorem performs_delete (tidy : Tidy streams fs) (depicts : Depicts fs versions) {deleteTree : Bool}
    (ran : Trail.txnBodyDelete depth root path deleteTree fs = .ok (value, next)) :
    Performs streams versions (.delete root path deleteTree) next := by
  obtain ⟨parents, _, opened, ensures⟩ := bind_ok.mp ran
  obtain ⟨_, _, isTxn, rest⟩ := bind_ok.mp ensures
  obtain ⟨rfl, txn, rfl⟩ := ensureTxnRoot_ok isTxn
  cases parents with
  | root id => cases rest
  | child node name above =>
      obtain ⟨parent, middle, made, deleted⟩ := bind_ok.mp rest
      obtain ⟨rfl, top, names, isTop, parts, leads⟩ := openPath_parent tidy.planted Root.noConfusion opened
      obtain ⟨record, reaches⟩ := depicts.makePathMutable tidy isTop leads made
      obtain ⟨alters, -, child, edge, emptied⟩ := reaches.unchanged.tidy.deleteEntry deleted
      obtain ⟨versions', acted, after⟩ := reaches.edit alters
      obtain ⟨tree, inner, isTree, isInner, shows⟩ := reaches.follow
      obtain ⟨branch, isBranch, inside⟩ := shows.child edge
      have present : tree.follow (components path) = some branch := by
        rw [parts, Tree.follow_concat, isInner, Option.bind_some, isBranch]
      refine ⟨alters.tidy, _, versions', .delete parts isTree present fun whole other => ?_, acted, after⟩
      exact inside.no_child fun below => emptied (by rw [whole]; rfl) other below

theorem getDag_ok {id : NodeId} (ran : Trail.getDag depth root path fs = .ok (id, next)) :
    next = fs ∧ ∃ parents, Trail.openPath depth root path false fs = .ok (parents, fs) ∧ parents.node = some id := by
  obtain ⟨parents, _, opened, rest⟩ := bind_ok.mp ran
  obtain rfl := Trail.reads_openPath depth root path false _ _ _ opened
  cases bottom : parents.node with
  | none =>
      rw [bottom] at rest
      cases rest
  | some here =>
      rw [bottom] at rest
      obtain ⟨rfl, rfl⟩ := pure_ok.mp rest
      exact ⟨rfl, parents, opened, bottom⟩

theorem performs_copy (tidy : Tidy streams fs) (depicts : Depicts fs versions) {fromRoot : Root} {fromPath : Bytes}
    {preserveHistory : Bool} (single : ∀ name ∈ components path, isSinglePathComponent name = true)
    (ran : Trail.txnBodyCopy depth fromRoot fromPath root path preserveHistory fs = .ok (value, next)) :
    Performs streams versions (.copy fromRoot fromPath root path preserveHistory) next := by
  obtain ⟨_, fs, isTxn, rest⟩ := bind_ok.mp ran
  obtain ⟨rfl, txn, rfl⟩ := ensureTxnRoot_ok isTxn
  cases fromRoot with
  | txn txn => cases rest
  | id => cases rest
  | revision rev =>
      obtain ⟨source, _, got, opens⟩ := bind_ok.mp rest
      obtain ⟨rfl, before, openedFrom, isSource⟩ := getDag_ok got
      obtain ⟨parents, _, opened, splits⟩ := bind_ok.mp opens
      obtain ⟨⟨above, name⟩, fs, isParent, makes⟩ := bind_ok.mp splits
      obtain ⟨rfl, node, rfl⟩ := parentOf_ok isParent
      obtain ⟨parent, middle, made, copied⟩ := bind_ok.mp makes
      obtain ⟨rfl, top', names, isTop', parts, leads'⟩ := openPath_parent tidy.planted Root.noConfusion opened
      -- the copied node is committed, and so it is still there
      obtain ⟨-, top, here, isTop, bottom, leads⟩ := openPath_leads tidy.planted Root.noConfusion openedFrom
      rw [isSource] at bottom
      cases bottom
      cases isTop with
      | revision stored =>
          have way := leads.way isSource
          obtain ⟨tree, isTree, shows⟩ := depicts.revision stored
          obtain ⟨branch, isBranch, shown⟩ := way.follow shows
          have frozen := tidy.planted.forest.reach_frozen
            (tidy.planted.revision_frozen (List.mem_of_getElem? stored)) way.reach
          obtain ⟨found, isFound, committed⟩ : ∃ found, fs.node source = some found ∧ found.rev ≠ none := by
            obtain ⟨found, isFound⟩ : ∃ found, fs.node source = some found := by
              cases shown with
              | node present _ _ => exact exists_vertex.mp ⟨_, present⟩
            exact ⟨found, isFound, fun mutable => frozen ((loose_node isFound).mpr mutable)⟩
          obtain ⟨record, reaches⟩ := depicts.makePathMutable tidy isTop' leads' made
          have unchanged := reaches.unchanged
          have alters := unchanged.tidy.copy (single name (by rw [parts]; exact List.mem_append_right _ List.mem_cons_self))
            reaches.loose ⟨found, unchanged.committed isFound committed, committed⟩ (unchanged.shows shown) copied
          obtain ⟨versions', acted, after⟩ := reaches.edit alters
          exact ⟨alters.tidy, _, versions', .copy isTree isBranch parts, acted, after⟩

/-- A node that is given by its id is not made mutable. -/
theorem makePathMutable_id {parents : ParentPath} {id : NodeId} {middle : Filesystem}
    (ran : Trail.openPath depth .id path false fs = .ok (parents, middle))
    (made : Trail.makePathMutable depth .id path parents middle = .ok (id, next)) : next = fs := by
  obtain rfl := Trail.reads_openPath depth .id path false _ _ _ ran
  unfold Trail.openPath at ran
  cases isId : parseId path with
  | none =>
      simp only [isId] at ran
      cases ran
  | some given =>
      simp only [isId] at ran
      obtain ⟨_, _, got, same⟩ := bind_ok.mp ran
      obtain ⟨rfl, -⟩ := pure_ok.mp same
      obtain ⟨node, _, again, rest⟩ := bind_ok.mp made
      obtain ⟨-, rfl⟩ := Trail.getNodeRevision_ok.mp again
      split at rest
      · exact (pure_ok.mp rest).2
      · obtain ⟨_, _, _, impossible⟩ := bind_ok.mp rest
        cases impossible

theorem performs_applyTextdelta (tidy : Tidy streams fs) (depicts : Depicts fs versions) {stream : Trail.Stream}
    (ran : Trail.txnBodyApplyTextdelta depth root path fs = .ok (stream, next)) :
    Performs (stream :: streams) versions (.applyTextdelta root path) next := by
  obtain ⟨parents, _, opened, makes⟩ := bind_ok.mp ran
  obtain ⟨id, middle, made, rest⟩ := bind_ok.mp makes
  obtain ⟨_, _, got, checks⟩ := bind_ok.mp rest
  obtain ⟨-, rfl⟩ := Trail.getNodeRevision_ok.mp got
  obtain ⟨_, middle, ensured, opens⟩ := bind_ok.mp checks
  obtain ⟨-, rfl⟩ := ensure_ok.mp ensured
  obtain ⟨key, last, keyed, ends⟩ := bind_ok.mp opens
  obtain ⟨rfl, rfl⟩ := pure_ok.mp ends
  obtain ⟨between, moved⟩ : Tidy streams middle ∧ Depicts middle versions := by
    by_cases tree : root = .id
    · subst tree
      rw [makePathMutable_id opened made]
      exact ⟨tidy, depicts⟩
    · obtain ⟨rfl, top, here, isTop, bottom, leads⟩ := openPath_leads tidy.planted tree opened
      obtain ⟨txn, rfl⟩ := makePathMutable_txn tidy.planted tree isTop leads made
      obtain ⟨record, reaches⟩ := depicts.makePathMutable tidy isTop leads made
      exact ⟨reaches.unchanged.tidy, reaches.depicts⟩
  obtain ⟨after, graph, txns, revisions⟩ := between.getEditStream keyed
  exact ⟨after, .stay, versions, .applyTextdelta, rfl, moved.same graph txns revisions⟩

theorem performs_finalizeEdits (tidy : Tidy streams fs) (depicts : Depicts fs versions) (stream : Trail.Stream)
    (ran : Trail.finalizeEdits stream.node fs = .ok (value, next)) :
    Performs streams versions (.finalizeEdits stream) next := by
  rcases tidy.finalizeEdits ran with ⟨loose, key, alters⟩ | rfl
  · by_cases there : ∃ txn record, fs.txns.lookup txn = some record ∧ Reach fs.graph record.root stream.node
    · obtain ⟨txn, record, stored, reach⟩ := there
      obtain ⟨names, way⟩ := exists_way reach
      obtain ⟨versions', acted, after⟩ := depicts.edit tidy stored way loose alters
      exact ⟨alters.tidy, _, versions', .finalizeEdits key, acted, after⟩
    · have apart := depicts.apart tidy loose alters fun txn record stored reach => there ⟨txn, record, stored, reach⟩
      exact ⟨alters.tidy, .stay, versions, .finalizeElsewhere, rfl, apart⟩
  · exact ⟨tidy, .stay, versions, .finalizeElsewhere, rfl, depicts⟩

/-- A transaction with another root, which stands for this tree. -/
theorem Depicts.reroot (depicts : Depicts fs versions) {txn : Nat} {record : Txn} {tree : Tree Bytes Face}
    (graph : next.graph = fs.graph) (revisions : next.revisions = fs.revisions)
    (this : next.txns.lookup txn = some record) (shows : Shows fs.graph record.root tree)
    (others : ∀ other, other ≠ txn → next.txns.lookup other = fs.txns.lookup other) :
    Depicts next (versions.setDraft txn (some tree)) := by
  refine ⟨?_, fun other => ?_⟩
  · rw [graph, revisions]
    exact depicts.revisions
  · rw [graph]
    by_cases same : other = txn
    · rw [same, this, setDraft_this]
      exact .some shows
    · rw [others other same, setDraft_other _ same]
      exact depicts.txns other

theorem createTxn_ok {root : NodeId} {txn : Nat} (ran : Trail.createTxn root fs = .ok (txn, next)) :
    txn = fs.nextTxn ∧ next.nodes = fs.nodes ∧ next.store = fs.store ∧ next.revisions = fs.revisions ∧
      next.txns.lookup txn = some ⟨root, root⟩ ∧
      ∀ other, other ≠ txn → next.txns.lookup other = fs.txns.lookup other := by
  rw [Trail.createTxn] at ran
  split at ran
  · cases ran
  · cases ran
    exact ⟨rfl, rfl, rfl, rfl, AList.lookup_insert _, fun other distinct => AList.lookup_insert_ne distinct⟩

theorem performs_beginTxn (tidy : Tidy streams fs) (depicts : Depicts fs versions) {rev txn : Nat}
    (fresh : fs.txns.lookup fs.nextTxn = none)
    (ran : Trail.txnBodyBeginTxn rev fs = .ok (txn, next)) : Performs streams versions (.beginTxn rev) next := by
  obtain ⟨root, fs, got, created⟩ := bind_ok.mp ran
  obtain ⟨stored, rfl⟩ := Trail.revGetRoot_ok got
  obtain ⟨files, archived⟩ := tidy.archived
  have member := List.mem_of_getElem? stored
  have kept := Trail.changes_createTxn closed_files (archived.grounded.revisions root member) _ tidy.archived _ _ created
  obtain ⟨node, found, committed⟩ := tidy.planted.revisions root member
  obtain ⟨tree, isTree, shows⟩ := depicts.revision stored
  obtain ⟨rfl, nodes, store, revisions, this, others⟩ := createTxn_ok created
  have retops : Retops fs next fs.nextTxn := by
    refine ⟨nodes, store, fun root earlier => Or.inl (revisions ▸ earlier), others, fun record isRecord => ?_⟩
    rw [this] at isRecord
    cases isRecord
    exact ⟨⟨⟨node, found, committed⟩, Or.inl rfl⟩, fun loose => absurd ((loose_node found).mp loose) committed⟩
  refine ⟨⟨tidy.sound.imp fun kinds sound => Trail.keeps_createTxn root _ sound _ _ created, kept,
    tidy.planted.retop retops⟩, .start fs.nextTxn rev, _, .beginTxn, ?_, depicts.reroot (graph_congr nodes store) revisions this shows others⟩
  have free : versions.drafts fs.nextTxn = none := by
    have related := depicts.txns fs.nextTxn
    rw [fresh] at related
    generalize versions.drafts fs.nextTxn = draft at related
    cases related
    rfl
  simp only [Versions.act, free, isTree, Option.bind_eq_bind, Option.bind_some]
  rfl

end Operations

end Subversion.Fs
