/-
This file shows that every run of a filesystem without merges of changes is a run of versioned trees.
-/

import Subversion.Fs.TreeRuns

namespace Subversion.Fs

open Delta SharedTrees Transactions VersionedTrees

/-- Each transaction has a name that was given to it. -/
def NamedTxns (fs : Filesystem) : Prop := ∀ txn record, fs.txns.lookup txn = some record → txn < fs.nextTxn

/-- A merge only moves a transaction without changes to another revision, and nothing is copied to a
name that a path cannot have. -/
def FsOp.Direct (fs : Filesystem) : FsOp → Prop
  | .merge txn source ancestor => ancestor = none ∧ source ∈ fs.revisions ∧
      ∃ record, fs.txns.lookup txn = some record ∧ record.root = record.base
  | .copy _ _ _ toPath _ => ∀ name ∈ components toPath, isSinglePathComponent name = true
  | _ => True

section Operations

variable {streams : List Trail.Stream} {fs next : Filesystem} {versions : Versions Bytes Face} {depth : Nat}
  {value : Unit}

theorem setTxnBase_ok {txn : Nat} {base : NodeId} (ran : Trail.setTxnBase txn base fs = .ok (value, next)) :
    ∃ record, fs.txns.lookup txn = some record ∧ next.nodes = fs.nodes ∧ next.store = fs.store ∧
      next.revisions = fs.revisions ∧ next.txns.lookup txn = some { record with base := base } ∧
      ∀ other, other ≠ txn → next.txns.lookup other = fs.txns.lookup other := by
  obtain ⟨record, middle, got, rest⟩ := bind_ok.mp ran
  obtain ⟨found, same⟩ := Trail.getTxn_ok got
  rw [same] at rest
  refine ⟨record, found, ?_⟩
  split at rest
  · next already =>
      obtain ⟨-, rfl⟩ := pure_ok.mp rest
      refine ⟨rfl, rfl, rfl, ?_, fun _ _ => rfl⟩
      rw [found, ← already]
  · cases rest
    exact ⟨rfl, rfl, rfl, AList.lookup_insert _, fun other distinct => AList.lookup_insert_ne distinct⟩

/-- A transaction without changes is moved to a revision. -/
theorem performs_merge (tidy : Tidy streams fs) (depicts : Depicts fs versions) {order : Trail.HashOrder}
    {txn : Nat} {source : NodeId} {record : Txn} (member : source ∈ fs.revisions)
    (stored : fs.txns.lookup txn = some record) (still : record.root = record.base)
    (ran : Trail.txnBodyMerge order depth txn source none fs = .ok (value, next)) :
    Performs streams versions (.merge txn source none) next := by
  obtain ⟨files, archived⟩ := tidy.archived
  have sound := tidy.sound.imp fun kinds sound =>
    Trail.keeps_txnBodyMerge order depth txn source none _ sound _ _ ran
  have kept : ∃ files, Archived files next := by
    obtain ⟨kinds, sound⟩ := tidy.sound
    exact Trail.changes_txnBodyMerge closed_files (fun _ _ _ => ⟨trivial, trivial⟩) order depth txn
      (archived.grounded.revisions source member) none _ ⟨tidy.archived, sound⟩ _ _ ran
  obtain ⟨again, _, got, afterTxn⟩ := bind_ok.mp ran
  obtain ⟨isAgain, rfl⟩ := Trail.getTxn_ok got
  obtain rfl : record = again := Option.some.inj (stored.symm.trans isAgain)
  obtain ⟨_, _, isRoot, afterRoot⟩ := bind_ok.mp afterTxn
  obtain ⟨-, rfl⟩ := Trail.getNodeRevision_ok.mp isRoot
  obtain ⟨_, _, isBase, afterBase⟩ := bind_ok.mp afterRoot
  obtain ⟨-, rfl⟩ := Trail.getNodeRevision_ok.mp isBase
  obtain ⟨base, fs, same, moves⟩ := bind_ok.mp afterBase
  obtain ⟨rfl, rfl⟩ := pure_ok.mp same
  dsimp only at moves
  rw [if_pos still.symm] at moves
  obtain ⟨_, middle, based, rooted⟩ := bind_ok.mp moves
  obtain ⟨first, isFirst, nodes, store, revisions, this, others⟩ := setTxnBase_ok based
  obtain ⟨second, isSecond, nodes', store', revisions', this', others'⟩ := setTxnRoot_ok rooted
  rw [this] at isSecond
  cases isSecond
  have otherTxns (other : Nat) (distinct : other ≠ txn) : next.txns.lookup other = fs.txns.lookup other :=
    (others' other distinct).trans (others other distinct)
  obtain ⟨node, found, committed⟩ := tidy.planted.revisions source member
  have retops : Retops fs next txn := by
    refine ⟨nodes'.trans nodes, store'.trans store, fun root earlier => Or.inl (revisions ▸ revisions' ▸ earlier),
      otherTxns, fun last isLast => ?_⟩
    rw [this'] at isLast
    cases isLast
    exact ⟨⟨⟨node, found, committed⟩, Or.inl rfl⟩, fun loose => absurd ((loose_node found).mp loose) committed⟩
  obtain ⟨rev, small, isRev⟩ := List.mem_iff_getElem.mp member
  obtain ⟨tree, isTree, shows⟩ := depicts.revision (List.getElem?_eq_some_iff.mpr ⟨small, isRev⟩)
  obtain ⟨old, isOld, -⟩ := depicts.draft stored
  refine ⟨⟨sound, kept, tidy.planted.retop retops⟩, .rebase txn rev, _, .merge, ?_,
    depicts.reroot (graph_congr (nodes'.trans nodes) (store'.trans store)) (revisions'.trans revisions) this' shows
      otherTxns⟩
  simp only [Versions.act, isOld, isTree, Option.bind_eq_bind, Option.bind_some]
  rfl

theorem performs_commitTxn (tidy : Tidy streams fs) (depicts : Depicts fs versions) {txn rev : Nat}
    (ran : Trail.txnBodyCommit depth txn fs = .ok (rev, next)) :
    Performs streams versions (.commitTxn txn) next := by
  obtain ⟨youngest, _, got, finds⟩ := bind_ok.mp ran
  obtain rfl := Trail.reads_youngestRev _ _ _ got
  obtain ⟨root, _, isRoot, gets⟩ := bind_ok.mp finds
  obtain ⟨-, rfl⟩ := Trail.revGetRoot_ok isRoot
  obtain ⟨_, _, isTxn, checks⟩ := bind_ok.mp gets
  obtain ⟨-, rfl⟩ := Trail.getTxn_ok isTxn
  obtain ⟨_, _, isBase, ensures⟩ := bind_ok.mp checks
  obtain ⟨-, rfl⟩ := Trail.getNodeRevision_ok.mp isBase
  obtain ⟨_, fs, ensured, commits⟩ := bind_ok.mp ensures
  obtain ⟨-, rfl⟩ := ensure_ok.mp ensured
  obtain ⟨after, ⟨record, stored, revisions⟩, gone, others, shows⟩ := tidy.commitTxn commits
  obtain ⟨tree, isTree, shown⟩ := depicts.draft stored
  refine ⟨after, .publish txn, { versions.setDraft txn none with done := versions.done ++ [tree] }, .commitTxn, ?_, ?_,
    fun other => ?_⟩
  · simp only [Versions.act, isTree, Option.bind_eq_bind, Option.bind_some]
    rfl
  · rw [revisions]
    exact List.rel_append (depicts.revisions.imp fun _ _ => shows) (.cons (shows shown) .nil)
  · show Option.Rel _ _ ((versions.setDraft txn none).drafts other)
    by_cases same : other = txn
    · rw [same, gone, setDraft_this]
      exact .none
    · rw [others other same, setDraft_other _ same]
      exact rel_imp (depicts.txns other) fun _ _ _ => shows

theorem performs_abortTxn (tidy : Tidy streams fs) (depicts : Depicts fs versions) {txn : Nat}
    (ran : Trail.txnBodyAbortTxn depth txn fs = .ok (value, next)) :
    Performs streams versions (.abortTxn txn) next := by
  obtain ⟨after, revisions, gone, others, shows⟩ := tidy.abortTxn ran
  obtain ⟨record, _, got, -⟩ := bind_ok.mp ran
  obtain ⟨stored, -⟩ := Trail.getTxn_ok got
  obtain ⟨tree, isTree, -⟩ := depicts.draft stored
  refine ⟨after, .discard txn, versions.setDraft txn none, .abortTxn, ?_, ?_, fun other => ?_⟩
  · simp only [Versions.act, isTree, Option.bind_eq_bind, Option.bind_some]
    rfl
  · rw [revisions]
    exact ((List.forall₂_and_left _ _).mpr ⟨fun root => tidy.planted.revision_frozen, depicts.revisions⟩).imp
      fun root tree both => shows both.2 (Or.inl both.1)
  · by_cases same : other = txn
    · rw [same, gone, setDraft_this]
      exact .none
    · rw [others other same, setDraft_other _ same]
      exact rel_imp (depicts.txns other) fun found _ isFound shown =>
        shows shown (Or.inr ⟨other, found, same, isFound, rfl⟩)

/-- What leaves the nodes and the lists alone. -/
theorem performs_steady (tidy : Tidy streams fs) (depicts : Depicts fs versions) {kinds : Nat → NodeKind} {op : FsOp}
    (steady : Steady kinds streams fs next) (kept : ∃ files, Archived files next) (acts : op.Acts versions .stay) :
    Performs streams versions op next := by
  obtain ⟨planted, graph⟩ := tidy.planted.steady steady
  exact ⟨⟨⟨kinds, steady.sound⟩, kept, planted⟩, .stay, versions, acts, rfl,
    depicts.same graph steady.light.txns steady.light.revisions⟩

theorem performs_writeContents (tidy : Tidy streams fs) (depicts : Depicts fs versions) {stream : Trail.Stream}
    {bytes : Bytes} (member : stream ∈ streams)
    (ran : changeStore (fun store => repWrite store stream.key bytes) fs = .ok (value, next)) :
    Performs streams versions (.writeContents stream bytes) next := by
  obtain ⟨kinds, lists, sound⟩ := tidy.sound
  obtain ⟨store, wrote, rfl⟩ := changeStore_ok.mp ran
  have plain := sound.opened stream member
  have light : Light fs (fs.setStore store) :=
    Light.op sound (show runRepOp fs.store 0 (.write stream.key bytes) = .ok store from wrote) fun key listed => by
      rintro rfl
      exact plain.2 listed
  exact performs_steady tidy depicts ⟨⟨lists, sound.repWrite plain.2 wrote⟩, light, rfl⟩
    (closed_files.step tidy.archived (.write trivial wrote)) .writeContents

theorem performs_deltify (tidy : Tidy streams fs) (depicts : Depicts fs versions) {order : Trail.HashOrder}
    {rev : Nat} {path : Bytes} {doDeltify recursive : Bool}
    (ran : Trail.txnBodyDeltify order depth rev path doDeltify recursive fs = .ok (value, next)) :
    Performs streams versions (.deltify rev path doDeltify recursive) next := by
  obtain ⟨kinds, sound⟩ := tidy.sound
  obtain ⟨id, fs, got, deltified⟩ := bind_ok.mp ran
  obtain ⟨rfl, -⟩ := getDag_ok got
  have kept := Trail.changes_deltifyUndeltify closed_files order depth recursive
    (fun _ _ _ _ => Or.inr fun _ => trivial) depth id _ ⟨tidy.archived, rfl⟩ _ _ deltified
  exact performs_steady tidy depicts
    (Trail.steady_deltifyUndeltify order depth doDeltify recursive depth id _ ⟨sound, Light.refl _, rfl⟩ _ _ deltified)
    kept.1 .deltify

/-- Every operation does with the trees what it should. -/
theorem Tidy.performs (tidy : Tidy streams fs) (named : NamedTxns fs) (depicts : Depicts fs versions)
    {order : Trail.HashOrder} {op : FsOp} {opened : List Trail.Stream} (allowed : op.Allowed streams)
    (direct : op.Direct fs) (ran : Trail.runFsOp order depth op fs = .ok (opened, next)) :
    Performs (opened ++ streams) versions op next := by
  cases op with
  | changeNodeProp root path name new =>
      obtain ⟨_, last, body, ends⟩ := bind_ok.mp ran
      obtain ⟨rfl, rfl⟩ := pure_ok.mp ends
      exact performs_changeNodeProp tidy depicts body
  | make root path kind =>
      obtain ⟨_, last, body, ends⟩ := bind_ok.mp ran
      obtain ⟨rfl, rfl⟩ := pure_ok.mp ends
      exact performs_make tidy depicts body
  | delete root path deleteTree =>
      obtain ⟨_, last, body, ends⟩ := bind_ok.mp ran
      obtain ⟨rfl, rfl⟩ := pure_ok.mp ends
      exact performs_delete tidy depicts body
  | copy fromRoot fromPath toRoot toPath preserveHistory =>
      obtain ⟨_, last, body, ends⟩ := bind_ok.mp ran
      obtain ⟨rfl, rfl⟩ := pure_ok.mp ends
      exact performs_copy tidy depicts direct body
  | applyTextdelta root path =>
      obtain ⟨stream, last, body, ends⟩ := bind_ok.mp ran
      obtain ⟨rfl, rfl⟩ := pure_ok.mp ends
      exact performs_applyTextdelta tidy depicts body
  | writeContents stream bytes =>
      obtain ⟨_, last, body, ends⟩ := bind_ok.mp ran
      obtain ⟨rfl, rfl⟩ := pure_ok.mp ends
      exact performs_writeContents tidy depicts allowed body
  | finalizeEdits stream =>
      obtain ⟨_, last, body, ends⟩ := bind_ok.mp ran
      obtain ⟨rfl, rfl⟩ := pure_ok.mp ends
      exact performs_finalizeEdits tidy depicts stream body
  | beginTxn rev =>
      obtain ⟨txn, last, body, ends⟩ := bind_ok.mp ran
      obtain ⟨rfl, rfl⟩ := pure_ok.mp ends
      have free : fs.txns.lookup fs.nextTxn = none :=
        Option.eq_none_iff_forall_ne_some.mpr fun record stored => lt_irrefl _ (named _ record stored)
      exact performs_beginTxn tidy depicts free body
  | merge txn source ancestor =>
      obtain ⟨rfl, member, record, stored, still⟩ := direct
      obtain ⟨_, last, body, ends⟩ := bind_ok.mp ran
      obtain ⟨rfl, rfl⟩ := pure_ok.mp ends
      exact performs_merge tidy depicts member stored still body
  | commitTxn txn =>
      obtain ⟨rev, last, body, ends⟩ := bind_ok.mp ran
      obtain ⟨rfl, rfl⟩ := pure_ok.mp ends
      exact performs_commitTxn tidy depicts body
  | abortTxn txn =>
      obtain ⟨_, last, body, ends⟩ := bind_ok.mp ran
      obtain ⟨rfl, rfl⟩ := pure_ok.mp ends
      exact performs_abortTxn tidy depicts body
  | deltify rev path doDeltify recursive =>
      obtain ⟨_, last, body, ends⟩ := bind_ok.mp ran
      obtain ⟨rfl, rfl⟩ := pure_ok.mp ends
      exact performs_deltify tidy depicts body

end Operations

section Running

variable {path : String} {last : Filesystem × List Trail.Stream} {meets : Filesystem → FsOp → Prop}

/-- The trees of a new filesystem. -/
def firstVersions : Versions Bytes Face := ⟨[newLeaf .dir], fun _ => none⟩

theorem node_dagInitFs {id : NodeId} {node : NodeRev} (found : (Trail.dagInitFs path).node id = some node) :
    id = [0, 0] ∧ node = ⟨.dir, some 0, none, none, none, none⟩ := by
  have stored : List.dlookup id [(⟨[0, 0], ⟨.dir, some 0, none, none, none, none⟩⟩ :
      Sigma fun _ : NodeId => NodeRev)] = some node := found
  by_cases root : id = [0, 0]
  · subst root
    rw [List.dlookup_cons_eq] at stored
    cases stored
    exact ⟨rfl, rfl⟩
  · rw [List.dlookup_cons_ne [] _ root] at stored
    cases stored

theorem shows_dagInitFs (path : String) : Shows (Trail.dagInitFs path).graph [0, 0] (newLeaf .dir) := by
  have found : (Trail.dagInitFs path).node [0, 0] = some ⟨.dir, some 0, none, none, none, none⟩ := rfl
  have edges : childOf ((Trail.dagInitFs path).listed ⟨.dir, some 0, none, none, none, none⟩) = fun _ => none := by
    rw [listed_empty rfl]
    rfl
  refine .node (graph_of_node found) (fun name => ?_) fun name child branch _ impossible => ?_
  · exact (congrArg Option.isSome (congrFun edges name)).symm
  · cases impossible

theorem planted_dagInitFs (path : String) : Planted (Trail.dagInitFs path) := by
  have childless {parent child : NodeId} {name : Bytes} : ¬ Edge (Trail.dagInitFs path).graph parent name child := by
    intro edge
    obtain ⟨node, found, isChild⟩ := edge_iff.mp edge
    obtain ⟨-, rfl⟩ := node_dagInitFs found
    rw [listed_empty rfl] at isChild
    cases isChild
  refine ⟨?_, ?_, ⟨?_, ?_, ?_, ?_, ?_⟩, ?_, ?_, ?_⟩
  · intro id node found _
    obtain ⟨-, rfl⟩ := node_dagInitFs found
    exact ⟨[], Or.inl ⟨rfl, rfl⟩, fun _ impossible => absurd impossible List.not_mem_nil⟩
  · intro id other node _ key found _ _ _ _ named _
    obtain ⟨-, rfl⟩ := node_dagInitFs found
    cases named
  · exact fun edge => absurd edge childless
  · exact fun edge => absurd edge childless
  · exact fun _ edge => absurd edge childless
  · exact fun _ _ => childless
  · intro id vertex present
    obtain ⟨node, found⟩ := exists_vertex.mp ⟨vertex, present⟩
    obtain ⟨rfl, -⟩ := node_dagInitFs found
    exact ⟨_, shows_dagInitFs path⟩
  · intro txn record stored
    cases stored
  · intro txn other record found stored
    cases stored
  · intro root member
    rw [List.mem_singleton.mp member]
    exact ⟨⟨.dir, some 0, none, none, none, none⟩, rfl, Option.some_ne_none 0⟩

theorem depicts_dagInitFs (path : String) : Depicts (Trail.dagInitFs path) firstVersions :=
  ⟨.cons (shows_dagInitFs path) .nil, fun _ => .none⟩

theorem closed_named : Trail.Closed (fun _ _ => True) fun fs => (∃ files, Archived files fs) ∧ NamedTxns fs := by
  refine closed_archived fun _ named change => ?_
  cases change with
  | txns nextTxn numbered grows =>
      intro txn record stored
      rcases grows.2 txn record stored with small | ⟨old, before⟩
      · exact small
      · exact (named txn old before).trans_le grows.1
  | _ => exact named

/-- What holds of a state and of the trees that it stands for. -/
structure Settled (state : Filesystem × List Trail.Stream) (versions : Versions Bytes Face) : Prop where
  tidy : Tidy state.2 state.1
  named : NamedTxns state.1
  depicts : Depicts state.1 versions

theorem settled_dagInitFs (path : String) : Settled (Trail.dagInitFs path, []) firstVersions :=
  ⟨⟨Trail.dagInitFs_sound path, ⟨∅, archived_dagInitFs path⟩, planted_dagInitFs path⟩,
    fun _ _ stored => (by cases stored), depicts_dagInitFs path⟩

theorem FsOp.Direct.permitted {fs : Filesystem} {op : FsOp} (direct : op.Direct fs) (grounded : Grounded fs) :
    op.Permitted (fun _ _ => True) fs := by
  refine FsOp.Rooted.permitted ?_
  cases op with
  | merge txn source ancestor => exact grounded.revisions source direct.2.1
  | _ => trivial

/-- One step of a filesystem is one step of the trees. -/
theorem Settled.step {state next : Filesystem × List Trail.Stream} {versions : Versions Bytes Face}
    (settled : Settled state versions) {order : Trail.HashOrder} {depth : Nat} {op : FsOp}
    {opened : List Trail.Stream} (allowed : op.Allowed state.2) (direct : op.Direct state.1)
    (ran : Trail.runFsOp order depth op state.1 = .ok (opened, next.1)) (streams : next.2 = opened ++ state.2) :
    ∃ action versions', op.Acts versions action ∧ versions.act action = some versions' ∧ Settled next versions' := by
  obtain ⟨files, archived⟩ := settled.tidy.archived
  obtain ⟨tidy, action, versions', acts, acted, depicts⟩ :=
    settled.tidy.performs settled.named settled.depicts allowed direct ran
  have named := Trail.changes_runFsOp closed_named order depth ⟨settled.tidy.archived, settled.named⟩ settled.tidy.sound
    (direct.permitted archived.grounded) ran
  exact ⟨action, versions', acts, acted, streams ▸ tidy, named.2, depicts⟩

/-- One step of a filesystem, with the step that its trees take. -/
def TreeStep (meets : Filesystem → FsOp → Prop)
    (before after : (Filesystem × List Trail.Stream) × Versions Bytes Face) : Prop :=
  ∃ order depth op opened action, op.Allowed before.1.2 ∧ meets before.1.1 op ∧
    Trail.runFsOp order depth op before.1.1 = .ok (opened, after.1.1) ∧ after.1.2 = opened ++ before.1.2 ∧
    op.Acts before.2 action ∧ before.2.act action = some after.2

abbrev TreeRun (meets : Filesystem → FsOp → Prop) :
    (Filesystem × List Trail.Stream) × Versions Bytes Face →
      (Filesystem × List Trail.Stream) × Versions Bytes Face → Prop :=
  Relation.ReflTransGen (TreeStep meets)

theorem TreeRun.versions {before after : (Filesystem × List Trail.Stream) × Versions Bytes Face}
    (run : TreeRun meets before after) : before.2.Run after.2 := by
  refine run.lift Prod.snd fun _ _ step => ?_
  obtain ⟨_, _, _, _, action, _, _, _, _, _, acted⟩ := step
  exact ⟨action, acted⟩

theorem FsRun.settled (direct : ∀ fs op, meets fs op → op.Direct fs) {state : Filesystem × List Trail.Stream}
    {versions : Versions Bytes Face} (settled : Settled state versions) (run : FsRun meets state last) :
    ∃ versions', TreeRun meets (state, versions) (last, versions') ∧ Settled last versions' := by
  induction run with
  | refl => exact ⟨versions, .refl, settled⟩
  | tail _ step ih =>
      obtain ⟨between, before, holds⟩ := ih
      obtain ⟨order, depth, op, opened, allowed, isMet, ran, streams⟩ := step
      obtain ⟨action, after, acts, acted, next⟩ := holds.step allowed (direct _ _ isMet) ran streams
      refine ⟨after, before.tail ⟨order, depth, op, opened, action, ?_⟩, next⟩
      exact ⟨allowed, isMet, ran, streams, acts, acted⟩

end Running

section Results

variable {path : String} {state last : Filesystem × List Trail.Stream} {meets : Filesystem → FsOp → Prop}

theorem FsRun.settled_start (direct : ∀ fs op, meets fs op → op.Direct fs)
    (run : FsRun meets (Trail.dagInitFs path, []) last) :
    ∃ versions, TreeRun meets ((Trail.dagInitFs path, []), firstVersions) (last, versions) ∧ Settled last versions :=
  FsRun.settled direct (settled_dagInitFs path) run

theorem FsRun.directs {ops : List FsOp} (plain : ∀ op ∈ ops, ∀ fs, op.Direct fs)
    (run : FsRun (fun fs op => op.Prudent fs ∧ op ∈ ops) state last) : FsRun (fun fs op => op.Direct fs) state last :=
  run.weaken fun fs op both => plain op both.2 fs

theorem firstEdits_direct : FsRun (fun fs op => op.Direct fs) (Trail.dagInitFs "db", []) (startedWith firstEdits) := by
  refine firstEdits_within.directs fun op member fs => ?_
  simp only [firstEdits, List.mem_cons, List.not_mem_nil, or_false] at member
  rcases member with rfl | rfl | rfl | rfl | rfl | rfl <;> trivial

theorem secondEdits_direct : FsRun (fun fs op => op.Direct fs) (startedWith firstEdits) afterSecond := by
  refine secondEdits_within.directs fun op member fs => ?_
  simp only [secondEdits, List.mem_cons, List.not_mem_nil, or_false] at member
  rcases member with rfl | rfl | rfl | rfl | rfl | rfl <;> trivial

/-- Two transactions are begun. -/
def twoTxns : List FsOp := [.beginTxn 0, .beginTxn 0]

theorem twoTxns_leave : AllPrudent twoTxns (Trail.dagInitFs "db", []) = true ∧
    ((startedWith twoTxns).1.txns.lookup 1).isSome = true ∧
    (Trail.runFsOp ⟨id, List.Perm.refl⟩ 9 (.make (.txn 0) [97] .file) (startedWith twoTxns).1).toBool = true :=
  ⟨by decide +kernel, by decide +kernel, by decide +kernel⟩

theorem twoTxns_direct : FsRun (fun fs op => op.Direct fs) (Trail.dagInitFs "db", []) (startedWith twoTxns) := by
  refine FsRun.directs (fun op member fs => ?_)
    (FsRun.attempts twoTxns (Trail.dagInitFs "db", []) twoTxns_leave.1)
  simp only [twoTxns, List.mem_cons, List.not_mem_nil, or_false, or_self] at member
  rw [member]
  trivial

/-- A file can be made in the first one. -/
theorem twoTxns_make : ∃ opened next, Trail.runFsOp ⟨id, List.Perm.refl⟩ 9 (.make (.txn 0) [97] .file)
    (startedWith twoTxns).1 = .ok (opened, next) := by
  have succeeds := twoTxns_leave.2.2
  generalize Trail.runFsOp _ _ _ _ = result at succeeds ⊢
  cases result with
  | error error => cases succeeds
  | ok found => exact ⟨found.1, found.2, rfl⟩

/-- In every state, each operation that succeeds does with the trees what it should. -/
theorem operations_act_on_trees (direct : ∀ fs op, meets fs op → op.Direct fs)
    (run : FsRun meets (Trail.dagInitFs path, []) state) {versions : Versions Bytes Face}
    (depicts : Depicts state.1 versions) {order : Trail.HashOrder} {depth : Nat} {op : FsOp}
    {opened : List Trail.Stream} {next : Filesystem} (allowed : op.Allowed state.2) (isDirect : op.Direct state.1)
    (ran : Trail.runFsOp order depth op state.1 = .ok (opened, next)) :
    ∃ action versions', op.Acts versions action ∧ versions.act action = some versions' ∧ Depicts next versions' := by
  obtain ⟨_, -, settled⟩ := run.settled_start direct
  exact (settled.tidy.performs settled.named depicts allowed isDirect ran).acts

theorem operations_act_on_trees_make : ∃ versions action versions' next,
    (FsOp.make (.txn 0) [97] .file).Acts versions action ∧ versions.act action = some versions' ∧
      Depicts next versions' := by
  obtain ⟨versions, -, settled⟩ := twoTxns_direct.settled_start fun _ _ direct => direct
  obtain ⟨opened, next, ran⟩ := twoTxns_make
  have allowed : (FsOp.make (.txn 0) [97] .file).Allowed (startedWith twoTxns).2 := trivial
  have isDirect : (FsOp.make (.txn 0) [97] .file).Direct (startedWith twoTxns).1 := trivial
  obtain ⟨action, versions', done⟩ := operations_act_on_trees (fun _ _ direct => direct) twoTxns_direct
    settled.depicts allowed isDirect ran
  exact ⟨versions, action, versions', next, done⟩

/-- Every run of a filesystem is a run of its trees, step by step. -/
theorem runs_are_versions (direct : ∀ fs op, meets fs op → op.Direct fs)
    (run : FsRun meets (Trail.dagInitFs path, []) last) :
    ∃ versions, TreeRun meets ((Trail.dagInitFs path, []), firstVersions) (last, versions) ∧
      Depicts last.1 versions := by
  obtain ⟨versions, before, settled⟩ := run.settled_start direct
  exact ⟨versions, before, settled.depicts⟩

theorem runs_are_versions_first : ∃ versions, TreeRun (fun fs op => op.Direct fs)
    ((Trail.dagInitFs "db", []), firstVersions) (startedWith firstEdits, versions) ∧
      Depicts (startedWith firstEdits).1 versions :=
  runs_are_versions (fun _ _ direct => direct) firstEdits_direct

/-- In every later state, a revision stands for the tree that it stood for. -/
theorem revision_trees_stay (direct : ∀ fs op, meets fs op → op.Direct fs)
    (earlier : FsRun meets (Trail.dagInitFs path, []) state) (run : FsRun meets state last) {rev : Nat} {root : NodeId}
    {tree : Tree Bytes Face} (stored : state.1.revisions[rev]? = some root) (shows : Shows state.1.graph root tree) :
    ∃ root', last.1.revisions[rev]? = some root' ∧ Shows last.1.graph root' tree := by
  obtain ⟨versions, -, settled⟩ := earlier.settled_start direct
  obtain ⟨versions', between, after⟩ := FsRun.settled direct settled run
  obtain ⟨old, isOld, shown⟩ := settled.depicts.revision stored
  obtain rfl := shown.unique shows
  obtain ⟨small, isTree⟩ := List.getElem?_eq_some_iff.mp isOld
  have small' : rev < versions'.done.length := small.trans_le between.versions.done.length_le
  have same : versions'.done[rev] = old := (between.versions.done.getElem small).symm.trans isTree
  have inside : rev < last.1.revisions.length := after.depicts.revisions.length_eq ▸ small'
  refine ⟨last.1.revisions[rev], List.getElem?_eq_getElem inside, ?_⟩
  rw [← same]
  exact after.depicts.revisions.get inside small'

theorem revision_trees_stay_second : ∃ tree root', Shows (startedWith firstEdits).1.graph [0, 1] tree ∧
    afterSecond.1.revisions[1]? = some root' ∧ Shows afterSecond.1.graph root' tree := by
  have stored := editsLeave.root
  obtain ⟨versions, -, settled⟩ := firstEdits_direct.settled_start fun _ _ direct => direct
  obtain ⟨tree, -, shows⟩ := settled.depicts.revision stored
  obtain ⟨root', stored', shows'⟩ := revision_trees_stay (fun _ _ direct => direct) firstEdits_direct
    secondEdits_direct stored shows
  exact ⟨tree, root', shows, stored', shows'⟩

/-- The operation may change this transaction. A stream may belong to any. -/
def FsOp.Concerns (txn : Nat) : FsOp → Prop
  | .changeNodeProp root _ _ _ | .make root _ _ | .delete root _ _ | .copy _ _ root _ _ => root = .txn txn
  | .finalizeEdits _ => True
  | .merge other _ _ | .commitTxn other | .abortTxn other => other = txn
  | _ => False

theorem FsOp.Acts.concerns {op : FsOp} {versions versions' : Versions Bytes Face} {action : Action Bytes Face}
    (acts : op.Acts versions action) (acted : versions.act action = some versions') {txn : Nat}
    {tree : Tree Bytes Face} (same : action.draft = some txn) (isTree : versions.drafts txn = some tree) :
    op.Concerns txn := by
  cases acts with
  | applyTextdelta | writeContents | deltify | finalizeElsewhere => cases same
  | finalizeEdits => trivial
  | beginTxn =>
      cases same
      rw [Versions.act, isTree] at acted
      cases acted
  | merge | commitTxn | abortTxn =>
      cases same
      rfl
  | changeNodeProp | make | delete | copy =>
      cases same
      rfl

end Results

end Subversion.Fs
