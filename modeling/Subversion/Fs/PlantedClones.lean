/-
This file shows that clones take the places of the nodes that they are made from, so that no tree
changes before an operation changes it.
-/

import Subversion.Fs.OpenPath
import Subversion.Fs.PlantedSteps

namespace Subversion.Fs

open Delta SharedTrees Transactions

section Reading

variable {fs next : Filesystem} {id child : NodeId} {depth : Nat} {name : Bytes}

theorem getDirEntries_list {node : NodeRev} (readable : node.kind = .dir → ∃ entries, ListOf fs node entries)
    {entries : List Entry} (ran : Trail.getDirEntries depth node fs = .ok (entries, next)) :
    next = fs ∧ node.kind = .dir ∧ ListOf fs node entries := by
  rw [Trail.getDirEntries] at ran
  cases isKind : node.kind with
  | file =>
      rw [isKind] at ran
      cases ran
  | dir =>
      rw [isKind] at ran
      obtain ⟨entries', list⟩ := readable isKind
      rcases list with ⟨unnamed, -⟩ | ⟨key, rep, named, stored, holds⟩
      · rw [unnamed] at ran
        obtain ⟨rfl, rfl⟩ := pure_ok.mp ran
        exact ⟨rfl, rfl, Or.inl ⟨unnamed, rfl⟩⟩
      · rw [named] at ran
        obtain ⟨read, rfl⟩ := readStore_ok.mp ran
        refine ⟨rfl, rfl, Or.inr ⟨key, rep, named, stored, ?_⟩⟩
        split at read
        · cases read
        · next raw contents =>
            have same := holds.parse stored contents
            rw [read] at same
            cases same
            exact holds

theorem readList {entries : List Entry}
    (readable : ∀ node, fs.node id = some node → node.kind = .dir → ∃ entries, ListOf fs node entries)
    (ran : Trail.dirEntriesSkel depth id fs = .ok (entries, next)) :
    next = fs ∧ ∃ node, fs.node id = some node ∧ node.kind = .dir ∧ ListOf fs node entries := by
  simp only [Trail.dirEntriesSkel, bind_ok, Trail.getNodeRevision_ok, ensure_ok] at ran
  obtain ⟨node, _, ⟨found, rfl⟩, -, _, ⟨isDir, rfl⟩, ran⟩ := ran
  obtain ⟨rfl, -, list⟩ := getDirEntries_list (readable node found) ran
  exact ⟨rfl, node, found, isDir, list⟩

theorem dirEntriesSkel_list (planted : Planted fs) {entries : List Entry}
    (ran : Trail.dirEntriesSkel depth id fs = .ok (entries, next)) :
    next = fs ∧ ∃ node, fs.node id = some node ∧ node.kind = .dir ∧ ListOf fs node entries :=
  readList (fun _ found isDir => (planted.lists found isDir).imp fun _ both => both.1) ran

theorem entryId_ok {text : Bytes} : entryId text = .ok id ↔ parseId text = some id := by
  rw [entryId]
  cases parseId text <;> simp

/-- What is opened under a name is the child of this name. -/
theorem openChild_edge (planted : Planted fs) (ran : Trail.openChild depth id name fs = .ok (child, next)) :
    next = fs ∧ Edge fs.graph id name child ∧ isSinglePathComponent name = true ∧
      ∃ node, fs.node id = some node ∧ node.kind = .dir := by
  obtain ⟨entries, middle, read, rest⟩ := bind_ok.mp ran
  obtain ⟨rfl, node, found, isDir, list⟩ := dirEntriesSkel_list planted read
  cases isText : findDirEntry entries name with
  | none =>
      rw [isText] at rest
      cases rest
  | some text =>
      rw [isText] at rest
      simp only [bind_ok, ensure_ok, readStore_ok, Trail.getNodeRevision_ok, pure_ok] at rest
      obtain ⟨-, _, ⟨single, rfl⟩, _, _, ⟨isId, rfl⟩, _, _, ⟨-, rfl⟩, rfl, rfl⟩ := rest
      refine ⟨rfl, edge_iff.mpr ⟨node, found, ?_⟩, single, node, found, isDir⟩
      rw [list.listed isDir, childOf, isText, Option.bind_some, entryId_ok.mp isId]

/-- The loop over the entries of a directory. -/
theorem forM_visits {visit : NodeId → Trail Unit} (entries : List Entry) :
    ∀ {fs : Filesystem} {value : Unit}, (entries.forM fun entry => do
        let child ← readStore fun _ => entryId entry.2
        visit child : Trail Unit) fs = .ok (value, next) →
      Visits (fun id before after => visit id before = .ok ((), after)) (namedChildren entries) fs next := by
  induction entries with
  | nil =>
      intro fs value ran
      obtain ⟨-, rfl⟩ := pure_ok.mp ran
      exact .nil _
  | cons entry rest ih =>
      intro fs value ran
      rw [List.forM] at ran
      simp only [bind_ok, readStore_ok] at ran
      obtain ⟨_, middle, ⟨child, _, ⟨isId, rfl⟩, first⟩, others⟩ := ran
      rw [namedChildren, List.filterMap_cons, entryId_ok.mp isId]
      exact .cons first (ih others)

end Reading

/-- Every node stands for the tree that it stood for, and what could be changed still can be. -/
structure Unchanged (streams : List Trail.Stream) (fs next : Filesystem) : Prop where
  tidy : Tidy streams next
  shows : ∀ {id tree}, Shows fs.graph id tree → Shows next.graph id tree
  loose : ∀ {id}, Loose fs.graph id → Loose next.graph id
  committed : ∀ {id node}, fs.node id = some node → node.rev ≠ none → next.node id = some node
  revisions : next.revisions = fs.revisions

/-- The tree of one node is changed, and with it the trees that it is part of. -/
structure Alters (streams : List Trail.Stream) (fs next : Filesystem) (id : NodeId)
    (change : Tree Bytes Face → Tree Bytes Face) : Prop where
  tidy : Tidy streams next
  along : ∀ {top names tree}, Way fs.graph top names id → Shows fs.graph top tree →
    Shows next.graph top (tree.modify change names)
  apart : ∀ {other tree}, Shows fs.graph other tree → ¬ Reach fs.graph other id →
    ¬ Loose fs.graph other ∨ other ∈ fs.tops → Shows next.graph other tree
  txns : next.txns = fs.txns
  revisions : next.revisions = fs.revisions

section Clones

variable {streams : List Trail.Stream} {fs middle next : Filesystem} {id : NodeId} {depth : Nat}

theorem Unchanged.refl (tidy : Tidy streams fs) : Unchanged streams fs fs :=
  ⟨tidy, fun shows => shows, fun loose => loose, fun found _ => found, rfl⟩

theorem Unchanged.trans (first : Unchanged streams fs middle) (second : Unchanged streams middle next) :
    Unchanged streams fs next :=
  ⟨second.tidy, fun shows => second.shows (first.shows shows), fun loose => second.loose (first.loose loose),
    fun found committed => second.committed (first.committed found committed) committed, second.revisions.trans first.revisions⟩

theorem Elsewhere.loose (elsewhere : Elsewhere fs next id) {node : NodeRev} (found : next.node id = some node)
    (mutable : node.rev = none) {other : NodeId} (loose : Loose fs.graph other) : Loose next.graph other := by
  by_cases same : other = id
  · exact same ▸ (loose_node found).mpr mutable
  · obtain ⟨old, stored, isMutable⟩ := loose_iff.mp loose
    exact (loose_node ((elsewhere.nodes other same).trans stored)).mpr isMutable

/-- The child of a directory that can be changed is cloned, and the clone takes its place. -/
theorem Tidy.cloneChild (tidy : Tidy streams fs) {parent : NodeId} {name : Bytes}
    (ran : Trail.cloneChild depth parent name fs = .ok (id, next)) :
    Unchanged streams fs next ∧ Edge next.graph parent name id ∧ Loose next.graph id ∧ next.txns = fs.txns ∧
      ∀ {top names}, Way fs.graph top names parent → Way next.graph top names parent := by
  simp only [Trail.cloneChild, bind_ok, Trail.getNodeRevision_ok, ensure_ok] at ran
  obtain ⟨node, _, ⟨found, rfl⟩, -, _, ⟨mutable, rfl⟩, -, _, ⟨single, rfl⟩, current, _, opened, child, fs,
    ⟨isChild, rfl⟩, ran⟩ := ran
  obtain ⟨rfl, edge, -, other, stored, isDir⟩ := openChild_edge tidy.planted opened
  rw [found] at stored
  cases stored
  split at ran
  · next loose =>
      obtain ⟨rfl, rfl⟩ := pure_ok.mp ran
      exact ⟨.refl tidy, edge, (loose_node isChild).mpr loose, rfl, fun way => way⟩
  · next committed =>
      simp only [bind_ok, pure_ok] at ran
      obtain ⟨clone, between, created, _, last, ranSet, rfl, rfl⟩ := ran
      obtain ⟨added, cloned⟩ := tidy.succeed isChild committed created
      have isLoose : Loose fs.graph parent := (loose_node found).mpr mutable
      have stored := added.others found
      have entered := added.tidy.setEntryUnchecked stored isDir mutable single (added.attachable isLoose)
        ranSet
      obtain ⟨branch, shows⟩ := tidy.planted.forest.trees current _ (graph_of_node isChild)
      have same (tree : Tree Bytes Face) (shown : Shows between.graph parent tree) :
          tree.graft name (some branch) = tree := by
        obtain ⟨inner, isInner, inside⟩ := shown.child (added.edge edge)
        rw [Tree.graft_same (isInner.trans (congrArg some (inside.unique (added.shows shows))))]
      have grafted := entered.modifies (cloned shows)
      obtain ⟨key, placed⟩ := entered.placed
      refine ⟨⟨entered.tidy, fun shown => grafted.unchanged same (added.shows shown), fun loose =>
        entered.elsewhere.loose placed mutable (added.loose loose), fun {other old} before isOld => ?_, ?_⟩,
        entered.edge, ?_, ?_, fun way => grafted.ways (added.way way)⟩
      · refine (entered.elsewhere.nodes other ?_).trans (added.others before)
        rintro rfl
        rw [found] at before
        cases before
        exact isOld mutable
      · rw [entered.elsewhere.revisions, added.same]
        rfl
      · exact entered.elsewhere.loose placed mutable ((loose_node added.placed).mpr rfl)
      · rw [entered.elsewhere.txns, added.same]
        rfl

theorem setTxnRoot_ok {txn : Nat} {root : NodeId} {value : Unit}
    (ran : Trail.setTxnRoot txn root fs = .ok (value, next)) :
    ∃ record, fs.txns.lookup txn = some record ∧ next.nodes = fs.nodes ∧ next.store = fs.store ∧
      next.revisions = fs.revisions ∧ next.txns.lookup txn = some { record with root := root } ∧
      ∀ other, other ≠ txn → next.txns.lookup other = fs.txns.lookup other := by
  obtain ⟨record, middle, got, rest⟩ := bind_ok.mp ran
  obtain ⟨found, same⟩ := Trail.getTxn_ok got
  rw [same] at rest
  refine ⟨record, found, ?_⟩
  split at rest
  · next already =>
      obtain ⟨-, rfl⟩ := pure_ok.mp rest
      refine ⟨rfl, rfl, rfl, ?_, fun _ _ => rfl⟩
      rw [found, ← already]
  · cases rest
    exact ⟨rfl, rfl, rfl, AList.lookup_insert _, fun other distinct => AList.lookup_insert_ne distinct⟩

/-- The transaction goes on with this root, which stands for the same tree. -/
structure Moves (fs next : Filesystem) (txn : Nat) (record : Txn) (top : NodeId) : Prop where
  before : fs.txns.lookup txn = some record
  after : next.txns.lookup txn = some { record with root := top }
  others : ∀ other, other ≠ txn → next.txns.lookup other = fs.txns.lookup other
  shows : ∀ {tree}, Shows fs.graph record.root tree → Shows next.graph top tree

/-- Afterwards the root of the transaction can be changed, and the trees are as before. -/
theorem Tidy.cloneRoot (tidy : Tidy streams fs) {txn : Nat} (ran : Trail.cloneRoot txn fs = .ok (id, next)) :
    Unchanged streams fs next ∧ Loose next.graph id ∧ ∃ record, Moves fs next txn record id := by
  have whole := ran
  obtain ⟨record, middle, got, rest⟩ := bind_ok.mp ran
  obtain ⟨isRecord, same⟩ := Trail.getTxn_ok got
  rw [same] at rest
  obtain ⟨⟨base, isBase, committed⟩, root⟩ := tidy.planted.txns isRecord
  split at rest
  · next unchanged =>
      simp only [bind_ok, Trail.getNodeRevision_ok, pure_ok] at rest
      obtain ⟨node, fs, ⟨found, rfl⟩, clone, between, created, _, last, rooted, rfl, rfl⟩ := rest
      rw [found] at isBase
      cases isBase
      obtain ⟨added, cloned⟩ := tidy.succeed found committed created
      obtain ⟨again, isAgain, nodes, store, revisions, this, others⟩ := setTxnRoot_ok rooted
      rw [added.same] at isAgain
      obtain rfl : record = again := Option.some.inj (isRecord.symm.trans isAgain)
      have graph := graph_congr nodes store
      have isLoose : Loose between.graph id := (loose_node added.placed).mpr rfl
      have txns (other : Nat) : between.txns.lookup other = fs.txns.lookup other := by rw [added.same]; rfl
      have retops : Retops between next txn := by
        refine ⟨nodes, store, fun root member => Or.inl (revisions ▸ member), others, fun final stored => ?_⟩
        rw [this] at stored
        cases stored
        refine ⟨⟨⟨base, added.others found, committed⟩, Or.inr isLoose⟩, fun _ => ⟨?_, added.alone⟩⟩
        rw [added.same]
        exact added.notTop
      obtain ⟨kinds, sound⟩ := tidy.sound
      refine ⟨⟨⟨⟨kinds, Trail.keeps_cloneRoot txn _ sound _ _ whole⟩, ?_, added.tidy.planted.retop retops⟩,
        fun shows => graph ▸ added.shows shows, fun loose => graph ▸ added.loose loose, fun before _ => ?_, ?_⟩,
        graph ▸ isLoose, record,
        isRecord, this, fun other distinct => (others other distinct).trans (txns other), ?_⟩
      · refine Trail.changes_cloneRoot closed_files txn _ ⟨tidy.archived, fun other stored top isTop => ?_⟩ _ _ whole
        obtain rfl : record = other := Option.some.inj (isRecord.symm.trans stored)
        rw [unchanged, found] at isTop
        cases isTop
        exact committed
      · rw [Filesystem.node, nodes]
        exact added.others before
      · rw [revisions, added.same]
        rfl
      · intro tree shows
        rw [graph]
        exact cloned (unchanged ▸ shows)
  · next changed =>
      simp only [bind_ok, Trail.getNodeRevision_ok, pure_ok] at rest
      obtain ⟨_, _, ⟨-, rfl⟩, rfl, rfl⟩ := rest
      exact ⟨.refl tidy, root.resolve_left changed, record, isRecord, isRecord, fun _ _ => rfl, fun shows => shows⟩

end Clones

section Paths

variable {streams : List Trail.Stream} {fs next : Filesystem} {id top : NodeId} {depth : Nat}

/-- The nodes of the path lead from one to the next. -/
inductive Leads (fs : Filesystem) (top : NodeId) : ParentPath → List Bytes → Prop where
  | root : Leads fs top (.root top) []
  | child {parents : ParentPath} {names : List Bytes} {here id : NodeId} {name : Bytes}
      (above : Leads fs top parents names) (bottom : parents.node = some here)
      (edge : Edge fs.graph here name id) (single : isSinglePathComponent name = true) :
      Leads fs top (.child (some id) name parents) (names ++ [name])

theorem Leads.way {parents : ParentPath} {names : List Bytes} (leads : Leads fs top parents names) :
    ∀ {here}, parents.node = some here → Way fs.graph top names here := by
  induction leads with
  | root =>
      rintro here ⟨⟩
      exact .here top
  | child above bottom edge _ ih =>
      rintro here ⟨⟩
      exact (ih bottom).append (.down edge (.here _))

theorem Chain.leads (planted : Planted fs) {parents : ParentPath} {names : List Bytes}
    (chain : Chain fs depth top parents names) : ∀ {here}, parents.node = some here → Leads fs top parents names := by
  induction chain with
  | root => exact fun _ => .root
  | @child parents names above name found chain bottom directory entry ih =>
      rintro here ⟨⟩
      rw [entryNode] at entry
      split at entry
      · cases entry
      · next entries after read =>
          obtain ⟨rfl, -⟩ := dirEntriesSkel_list planted read
          split at entry
          · cases entry
          · cases opened : Trail.openChild depth above name after with
            | error error =>
                rw [opened] at entry
                cases entry
            | ok result =>
                rw [opened] at entry
                cases entry
                obtain ⟨-, edge, single, -⟩ := openChild_edge planted opened
                exact .child (ih bottom) bottom edge single

/-- In a transaction, the end of the path can be changed afterwards, and it is where it was. -/
theorem Tidy.makePathMutable (tidy : Tidy streams fs) {parents : ParentPath} {names : List Bytes} {txn : Nat}
    {errorPath : Bytes} {record : Txn} (isRecord : fs.txns.lookup txn = some record)
    (leads : Leads fs record.root parents names)
    (ran : Trail.makePathMutable depth (.txn txn) errorPath parents fs = .ok (id, next)) :
    Unchanged streams fs next ∧ Loose next.graph id ∧
      ∃ top, Moves fs next txn record top ∧ Way next.graph top names id := by
  have stays : Moves fs fs txn record record.root := ⟨isRecord, isRecord, fun _ _ => rfl, fun shows => shows⟩
  induction leads generalizing id next with
  | root =>
      obtain ⟨node, _, got, rest⟩ := bind_ok.mp ran
      obtain ⟨found, rfl⟩ := Trail.getNodeRevision_ok.mp got
      split at rest
      · next mutable =>
          obtain ⟨rfl, rfl⟩ := pure_ok.mp rest
          exact ⟨.refl tidy, (loose_node found).mpr mutable, _, stays, .here _⟩
      · obtain ⟨unchanged, loose, other, moves⟩ := tidy.cloneRoot rest
        obtain rfl : record = other := Option.some.inj (isRecord.symm.trans moves.before)
        exact ⟨unchanged, loose, id, moves, .here id⟩
  | @child parents names here child name above bottom edge single ih =>
      obtain ⟨node, _, got, rest⟩ := bind_ok.mp ran
      obtain ⟨found, rfl⟩ := Trail.getNodeRevision_ok.mp got
      split at rest
      · next mutable =>
          obtain ⟨rfl, rfl⟩ := pure_ok.mp rest
          exact ⟨.refl tidy, (loose_node found).mpr mutable, _, stays,
            (above.way bottom).append (.down edge (.here _))⟩
      · obtain ⟨parent, middle, made, cloned⟩ := bind_ok.mp rest
        obtain ⟨first, -, top, moves, way⟩ := ih made
        obtain ⟨second, edge', loose, txns, ways⟩ := first.tidy.cloneChild cloned
        exact ⟨first.trans second, loose, top, ⟨moves.before, by rw [txns]; exact moves.after,
          fun other distinct => by rw [txns]; exact moves.others other distinct,
          fun shows => second.shows (moves.shows shows)⟩, (ways way).append (.down edge' (.here _))⟩

/-- What is committed is not made mutable. -/
theorem makePathMutable_revision (planted : Planted fs) {parents : ParentPath} {names : List Bytes} {rev : Nat}
    {errorPath : Bytes} (frozen : ¬ Loose fs.graph top) (leads : Leads fs top parents names) :
    Trail.makePathMutable depth (.revision rev) errorPath parents fs ≠ .ok (id, next) := by
  induction leads generalizing id next with
  | root =>
      intro ran
      obtain ⟨node, _, got, rest⟩ := bind_ok.mp ran
      obtain ⟨found, rfl⟩ := Trail.getNodeRevision_ok.mp got
      split at rest
      · next mutable => exact frozen ((loose_node found).mpr mutable)
      · obtain ⟨_, _, _, impossible⟩ := bind_ok.mp rest
        cases impossible
  | child above bottom edge single ih =>
      intro ran
      obtain ⟨node, _, got, rest⟩ := bind_ok.mp ran
      obtain ⟨found, rfl⟩ := Trail.getNodeRevision_ok.mp got
      split at rest
      · next mutable =>
          exact planted.forest.reach_frozen frozen ((above.way bottom).append (.down edge (.here _))).reach
            ((loose_node found).mpr mutable)
      · obtain ⟨_, _, made, -⟩ := bind_ok.mp rest
        exact ih made

end Paths

end Subversion.Fs
