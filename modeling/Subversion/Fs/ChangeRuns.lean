/-
This file shows that every trail of a filesystem is a series of single changes.
-/

import Subversion.Fs.ChangeSteps

namespace Subversion.Fs.Trail

open Delta Transactions

section Stability

variable {risky : Filesystem → Risk → Prop} {kept : Filesystem → Prop} (closed : Closed risky kept)
  {nodes : NodeId → Option NodeRev}
include closed

/-- While texts are deltified, no node is changed. -/
theorem changes_deltify {target source : NodeId} {propsOnly : Bool} (follows : Follows target source)
    (settled : ∀ node, nodes source = some node → node.rev ≠ none ∨ ∀ fs, risky fs (.deltify source))
    (isFile : propsOnly = false → ∀ older newer, nodes target = some older → nodes source = some newer →
      older.kind = .file ∨ newer.kind = .file) (depth : Nat) :
    Keeps (fun fs => kept fs ∧ fs.node = nodes) (deltify depth target source propsOnly) := by
  rintro fs ⟨holds, nodesSame⟩ value next ran
  refine @deltify_keeps _ _ (fun fs => kept fs ∧ fs.node = nodes) _ _ _ _ _ ?_ ⟨holds, nodesSame⟩ ran
  intro targetNode sourceNode key base isTarget isSource paired distinct
  rw [nodesSame] at isTarget isSource
  have pair : Paired targetNode sourceNode key base :=
    paired.imp id fun ⟨texts, keys⟩ => ⟨isFile texts targetNode sourceNode isTarget isSource, keys⟩
  rintro before ⟨holds, same⟩ value next ran
  obtain ⟨store, deltified, rfl⟩ := changeStore_ok.mp ran
  have risk := (settled sourceNode isSource).imp_right fun all => all before
  exact ⟨closed.step holds (.deltify (same ▸ isTarget) (same ▸ isSource) follows pair distinct risk
    deltified), same⟩

theorem changes_undeltifyRepOf (depth : Nat) (key : Option Nat) :
    Keeps (fun fs => kept fs ∧ fs.node = nodes) (undeltifyRepOf depth key) := by
  unfold undeltifyRepOf
  split
  · exact keeps_pure _
  · rintro fs ⟨holds, same⟩ value next ran
    obtain ⟨store, undeltified, rfl⟩ := changeStore_ok.mp ran
    exact ⟨closed.step holds (.undeltify undeltified), same⟩

theorem changes_deltifyById {target : NodeId} {isDir : Bool}
    (settled : ∀ source node, nodes source = some node →
      node.rev ≠ none ∨ ∀ fs, risky fs (.deltify source))
    (isFile : isDir = false → ∀ node, nodes target = some node → node.kind = .file) (depth : Nat) :
    Keeps (fun fs => kept fs ∧ fs.node = nodes) (deltifyById depth target isDir) := by
  have text (notDir : isDir = false) (older newer : NodeRev) (isOlder : nodes target = some older) :
      older.kind = .file ∨ newer.kind = .file := Or.inl (isFile notDir older isOlder)
  apply reads_get.keeps.bind
  intro fs
  split
  · exact changes_deltify closed (Or.inr (Or.inl rfl)) (settled _)
      (fun notDir older newer isOlder _ => text notDir older newer isOlder) depth
  · exact changes_deltify closed (Or.inr (Or.inr rfl)) (settled _)
      (fun notDir older newer isOlder _ => text notDir older newer isOlder) depth
  · exact keeps_pure _

theorem changes_deltifyUndeltify (order : HashOrder) (depth : Nat) {doDeltify : Bool} (recurse : Bool)
    (settled : doDeltify = true → ∀ source node, nodes source = some node →
      node.rev ≠ none ∨ ∀ fs, risky fs (.deltify source)) (fuel : Nat) :
    ∀ id : NodeId, Keeps (fun fs => kept fs ∧ fs.node = nodes)
      (deltifyUndeltify order depth doDeltify recurse fuel id) := by
  induction fuel with
  | zero => exact fun _ => (reads_fail _).keeps
  | succ fuel ih =>
      rintro id fs ⟨holds, same⟩ value next ran
      obtain ⟨node, _, got, rest⟩ := bind_ok.mp ran
      obtain ⟨found, rfl⟩ := getNodeRevision_ok.mp got
      have last : Keeps (fun fs => kept fs ∧ fs.node = nodes) (if doDeltify then
          deltifyById depth id (node.kind = .dir) else undeltify depth id) := by
        split
        · next deltifies =>
            refine changes_deltifyById closed (settled deltifies) (fun notDir other isOther => ?_) depth
            rw [← same, found] at isOther
            cases isOther
            exact kind_file notDir
        · exact (reads_getNodeRevision id).keeps.bind fun _ =>
            (changes_undeltifyRepOf closed depth _).bind fun _ => changes_undeltifyRepOf closed depth _
      have below : Keeps (fun fs => kept fs ∧ fs.node = nodes) (do
          let entries ← dirEntriesHash depth id
          (order.list entries).forM fun entry => do
            let child ← readStore fun _ => entryId entry.2
            deltifyUndeltify order depth doDeltify recurse fuel child
          if doDeltify then deltifyById depth id (node.kind = .dir) else undeltify depth id :
            Trail Unit) :=
        (reads_dirEntriesHash depth id).keeps.bind fun _ =>
          (keeps_forM fun entry _ => (reads_readStore _).keeps.bind ih).bind fun _ => last
      split at rest
      · exact below _ ⟨holds, same⟩ value next rest
      · exact last _ ⟨holds, same⟩ value next rest

/-- The rep is immutable from then on. -/
theorem changes_immutableRepOf (key : Option Nat) (frozen : Nat → Prop) :
    Ensures (fun fs => kept fs ∧ fs.node = nodes ∧ ∀ key, frozen key → Immutable fs.store key)
      (immutableRepOf key) fun _ fs => kept fs ∧ fs.node = nodes ∧
        ∀ other, frozen other ∨ key = some other → Immutable fs.store other := by
  unfold immutableRepOf
  split
  · rintro fs ⟨holds, same, all⟩ value next ran
    obtain ⟨-, rfl⟩ := pure_ok.mp ran
    exact ⟨holds, same, fun other which => all other (which.resolve_right (by simp))⟩
  · next key =>
      rintro fs ⟨holds, same, all⟩ value next ran
      obtain ⟨store, made, rfl⟩ := changeStore_ok.mp ran
      refine ⟨closed.step holds (.freeze made), same, ?_⟩
      rintro other (earlier | isKey)
      · exact ((closed.invariant holds).makeRepImmutable_spares made (all other earlier)).1
      · cases isKey
        obtain ⟨rep, -, -, -, replaces⟩ := (closed.invariant holds).makeRepImmutable_replaces made
        exact ⟨_, replaces.this, rfl⟩

/-- The node is committed from then on. -/
theorem changes_makeNodeImmutable (id : NodeId) (rev : Nat) :
    Ensures kept (makeNodeImmutable id rev) fun _ fs =>
      kept fs ∧ ∀ node, fs.node id = some node → node.rev ≠ none := by
  intro fs holds value next ran
  obtain ⟨node, _, got, rest⟩ := bind_ok.mp ran
  obtain ⟨found, rfl⟩ := getNodeRevision_ok.mp got
  split at rest
  · next committed =>
      obtain ⟨-, rfl⟩ := pure_ok.mp rest
      refine ⟨holds, fun other present => ?_⟩
      rw [found] at present
      cases present
      exact committed
  · next mutable =>
      rw [not_ne_iff] at mutable
      simp only [bind_ok, ensure_ok, putNodeRevision_ok] at rest
      obtain ⟨-, _, ⟨finished, rfl⟩, _, first, ranProp, _, second, ranData, -, rfl⟩ := rest
      obtain ⟨middle, props⟩ := changes_immutableRepOf closed node.propKey (fun _ => False) _
        ⟨holds, rfl, fun _ impossible => impossible.elim⟩ _ _ ranProp
      obtain ⟨after, same, all⟩ := changes_immutableRepOf closed node.dataKey
        (fun key => False ∨ node.propKey = some key) _ ⟨middle, props⟩ _ _ ranData
      have still : second.node id = some node := by
        rw [same]
        exact found
      refine ⟨closed.step after (.stabilize rev still mutable finished fun key isKey => ?_), ?_⟩
      · exact all key (isKey.imp_left Or.inr)
      · intro other present
        rw [Filesystem.node_putNode, if_pos rfl] at present
        cases present
        exact Option.some_ne_none rev

theorem changes_stableNode (depth : Nat) (id : NodeId) :
    Ensures (fun fs => kept fs ∧ ∀ node, fs.node id = some node → node.rev ≠ none) (stableNode depth id)
      fun _ => kept := by
  rintro fs ⟨holds, committed⟩ value next ran
  obtain ⟨node, _, got, rest⟩ := bind_ok.mp ran
  obtain ⟨found, rfl⟩ := getNodeRevision_ok.mp got
  cases isPredecessor : idPredecessor id with
  | none =>
      rw [isPredecessor] at rest
      obtain ⟨-, rfl⟩ := pure_ok.mp rest
      exact holds
  | some predecessor =>
      rw [isPredecessor] at rest
      refine (changes_deltify closed (Or.inl isPredecessor) (fun other present => ?_)
        (fun notDir older newer _ isNewer => ?_) depth _ ⟨holds, rfl⟩ value next rest).1
      · exact Or.inl (committed other present)
      · rw [found] at isNewer
        cases isNewer
        exact Or.inr (kind_file notDir)

theorem changes_stabilizeNode (depth rev fuel : Nat) :
    ∀ id : NodeId, Keeps kept (stabilizeNode depth rev fuel id) := by
  induction fuel with
  | zero => exact fun _ => (reads_fail _).keeps
  | succ fuel ih =>
      intro id
      apply (reads_getNodeRevision id).keeps.bind
      intro node
      have last : Keeps kept (do
          makeNodeImmutable id rev
          stableNode depth id : Trail Unit) :=
        (changes_makeNodeImmutable closed id rev).bind fun _ => changes_stableNode closed depth id
      split
      · exact keeps_pure _
      · split
        · apply (reads_dirEntriesSkel depth id).keeps.bind
          intro entries
          refine Keeps.bind (keeps_forM fun entry _ => ?_) fun _ => last
          exact (reads_readStore _).keeps.bind ih
        · exact last

theorem changes_commitTxn (depth txn : Nat) : Keeps kept (commitTxn depth txn) := by
  intro fs holds value next ran
  obtain ⟨record, _, got, afterTxn⟩ := bind_ok.mp ran
  obtain ⟨found, rfl⟩ := getTxn_ok got
  obtain ⟨node, _, isRoot, afterRoot⟩ := bind_ok.mp afterTxn
  obtain ⟨-, rfl⟩ := getNodeRevision_ok.mp isRoot
  obtain ⟨rev, middle, put, rest⟩ := bind_ok.mp afterRoot
  cases put
  have entered := closed.step holds (.revision ((closed.grounded holds).txns txn record found).1)
  refine Keeps.bind (changes_stabilizeNode closed depth _ depth record.root) (fun _ => ?_) _ entered _ _ rest
  exact (changes_deleteTxn closed txn).bind fun _ => keeps_pure _

theorem changes_txnBodyCommit (depth txn : Nat) : Keeps kept (txnBodyCommit depth txn) := by
  apply reads_youngestRev.keeps.bind
  intro youngest
  apply (reads_revGetRoot youngest).keeps.bind
  intro youngestRoot
  apply (reads_getTxn txn).keeps.bind
  intro record
  apply (reads_getNodeRevision _).keeps.bind
  intro _
  exact (reads_ensure _ _).keeps.bind fun _ => changes_commitTxn closed depth txn

end Stability

section Paths

/-- The node at the top of a path. -/
def rootOf : ParentPath → NodeId
  | .root id => id
  | .child _ _ parent => rootOf parent

/-- A path in a transaction begins at the root of the transaction. -/
def RootedAt (root : Root) (parentPath : ParentPath) (fs : Filesystem) : Prop :=
  ∀ txn, root = .txn txn → ∀ record, fs.txns.lookup txn = some record → record.root = rootOf parentPath

/-- Each component is put at the bottom of the path. -/
theorem openPathFrom_rootOf (depth : Nat) (root : Root) (path : Bytes) (lastOptional : Bool)
    (fuel : Nat) :
    ∀ (here : NodeId) (parentPath : ParentPath) (rest : Bytes) (fs : Filesystem) (found : ParentPath)
      (next : Filesystem), openPathFrom depth root path lastOptional fuel here parentPath rest fs =
        .ok (found, next) → rootOf found = rootOf parentPath := by
  induction fuel with
  | zero => exact fun _ _ _ _ _ _ ran => by cases ran
  | succ fuel ih =>
      intro here parentPath rest fs found next ran
      unfold openPathFrom at ran
      dsimp only at ran
      split at ran
      · cases behind : (nextEntryName rest).2 with
        | none =>
            rw [behind] at ran
            obtain ⟨rfl, -⟩ := pure_ok.mp ran
            rfl
        | some more =>
            rw [behind] at ran
            obtain ⟨-, middle, -, continued⟩ := bind_ok.mp ran
            exact ih _ _ _ _ _ _ continued
      · dsimp only at ran
        split at ran
        · next child middle opened =>
            cases behind : (nextEntryName rest).2 with
            | none =>
                rw [behind] at ran
                obtain ⟨rfl, -⟩ := pure_ok.mp ran
                rfl
            | some more =>
                rw [behind] at ran
                obtain ⟨-, last, -, continued⟩ := bind_ok.mp ran
                have below := ih _ _ _ _ _ _ continued
                exact below
        · split at ran
          · split at ran
            · cases ran
              rfl
            · cases ran
          · cases ran

theorem openPath_rootedAt (depth : Nat) (root : Root) (path : Bytes) (lastOptional : Bool)
    {fs next : Filesystem} {found : ParentPath}
    (ran : openPath depth root path lastOptional fs = .ok (found, next)) : RootedAt root found fs := by
  rintro txn rfl record isRecord
  rw [openPath] at ran
  · obtain ⟨here, middle, isRoot, opened⟩ := bind_ok.mp ran
    rw [openPathFrom_rootOf depth _ path lastOptional _ _ _ _ _ _ _ opened]
    obtain ⟨other, _, got, rest⟩ := bind_ok.mp isRoot
    obtain ⟨again, -⟩ := getTxn_ok got
    rw [isRecord] at again
    cases again
    obtain ⟨id, _, isId, present⟩ := bind_ok.mp rest
    obtain ⟨-, _, -, last⟩ := bind_ok.mp present
    rw [(pure_ok.mp last).1, (pure_ok.mp isId).1]
    rfl
  · exact Root.noConfusion

end Paths

section Bodies

variable {risky : Filesystem → Risk → Prop} {kept : Filesystem → Prop} (closed : Closed risky kept)
  {kinds : Nat → NodeKind} {streams : List Stream}
include closed

theorem changes_mutableRootNode (root : Root) (errorPath : Bytes) {parentPath : ParentPath} :
    Ensures (fun fs => kept fs ∧ RootedAt root parentPath fs ∧
      ∀ node, fs.node (rootOf parentPath) = some node → node.rev ≠ none)
      (mutableRootNode root errorPath) fun _ => kept := by
  cases root with
  | txn txn =>
      rintro fs ⟨holds, rooted, committed⟩ value next ran
      refine changes_cloneRoot closed txn fs ⟨holds, fun record isRecord node found => ?_⟩ value next ran
      rw [rooted txn rfl record isRecord] at found
      exact committed node found
  | revision rev =>
      intro fs holds value next ran
      exact (reads_get.bind fun _ => reads_fail _).keeps fs holds.1 value next ran
  | id =>
      intro fs holds value next ran
      exact (reads_get.bind fun _ => reads_fail _).keeps fs holds.1 value next ran

/-- The nodes that are cloned are not mutable, the root among them. -/
theorem changes_makePathMutable (depth : Nat) (root : Root) (errorPath : Bytes)
    (parentPath : ParentPath) :
    Ensures (fun fs => kept fs ∧ SoundFor kinds streams fs ∧ RootedAt root parentPath fs)
      (makePathMutable depth root errorPath parentPath)
      fun _ fs => kept fs ∧ SoundFor kinds streams fs := by
  have changes : Ensures (fun fs => kept fs ∧ SoundFor kinds streams fs ∧ RootedAt root parentPath fs)
      (makePathMutable depth root errorPath parentPath) fun _ => kept := by
    induction parentPath with
    | root id =>
        rintro fs ⟨holds, -, rooted⟩ value next ran
        obtain ⟨node, _, got, rest⟩ := bind_ok.mp ran
        obtain ⟨found, rfl⟩ := getNodeRevision_ok.mp got
        split at rest
        · obtain ⟨-, rfl⟩ := pure_ok.mp rest
          exact holds
        · next committed =>
            refine changes_mutableRootNode closed root errorPath _ ⟨holds, rooted, fun other present => ?_⟩
              value next rest
            rw [rootOf, found] at present
            cases present
            exact committed
    | child node entry parent ih =>
        cases node with
        | none => exact fun _ _ _ _ ran => by cases ran
        | some id =>
            rintro fs ⟨holds, sound, rooted⟩ value next ran
            obtain ⟨node, _, got, rest⟩ := bind_ok.mp ran
            obtain ⟨found, rfl⟩ := getNodeRevision_ok.mp got
            split at rest
            · obtain ⟨-, rfl⟩ := pure_ok.mp rest
              exact holds
            · obtain ⟨parentId, middle, above, cloned⟩ := bind_ok.mp rest
              have after := ih _ ⟨holds, sound, rooted⟩ _ _ above
              have still := keeps_makePathMutable depth root errorPath parent _ sound _ _ above
              exact changes_cloneChild closed depth parentId entry _ ⟨after, still⟩ _ _ cloned
  rintro fs ⟨holds, sound, rooted⟩ value next ran
  exact ⟨changes fs ⟨holds, sound, rooted⟩ value next ran,
    keeps_makePathMutable depth root errorPath parentPath fs sound value next ran⟩

omit closed in
/-- The path was only read. -/
theorem opens_openPath (depth : Nat) (root : Root) (path : Bytes) (lastOptional : Bool) :
    Ensures (fun fs => kept fs ∧ SoundFor kinds streams fs) (openPath depth root path lastOptional)
      fun parentPath fs => kept fs ∧ SoundFor kinds streams fs ∧ RootedAt root parentPath fs := by
  rintro fs ⟨holds, sound⟩ parentPath next ran
  have rooted := openPath_rootedAt depth root path lastOptional ran
  rw [reads_openPath depth root path lastOptional _ _ _ ran]
  exact ⟨holds, sound, rooted⟩

omit closed in
theorem opens_parentOf (root : Root) (parentPath : ParentPath) :
    Ensures (fun fs => kept fs ∧ SoundFor kinds streams fs ∧ RootedAt root parentPath fs)
      (parentOf parentPath)
      fun found fs => kept fs ∧ SoundFor kinds streams fs ∧ RootedAt root found.1 fs := by
  cases parentPath with
  | root id => exact fun _ _ _ _ ran => by cases ran
  | child node entry parent =>
      intro fs holds found next ran
      obtain ⟨rfl, rfl⟩ := pure_ok.mp ran
      exact holds

theorem changes_txnBodyChangeNodeProp (depth : Nat) (root : Root) (path name : Bytes)
    (value : Option Bytes) :
    Ensures (fun fs => kept fs ∧ SoundFor kinds streams fs)
      (txnBodyChangeNodeProp depth root path name value) fun _ => kept := by
  refine (reads_ensureTxnRoot root).keeps.ensures fun _ => ?_
  refine Ensures.bind (opens_openPath depth root path false) fun parentPath => ?_
  refine Ensures.bind (changes_makePathMutable closed depth root path parentPath) fun id => ?_
  refine (reads_getProplist depth id).keeps.ensures fun proplist => ?_
  refine (reads_readStore _).keeps.ensures fun changed => ?_
  exact fun fs holds => changes_setProplist closed depth id changed fs holds.1

theorem changes_txnBodyMake (depth : Nat) (root : Root) (path : Bytes) (kind : NodeKind) :
    Ensures (fun fs => kept fs ∧ SoundFor kinds streams fs) (txnBodyMake depth root path kind)
      fun _ => kept := by
  have made : Ensures (fun fs => kept fs ∧ SoundFor kinds streams fs) (do
      let parentPath ← openPath depth root path true
      let fs ← get
      ensure (parentPath.node = none) (alreadyExists fs.nodes.path root path)
      let found ← parentOf parentPath
      let parentId ← makePathMutable depth root path found.1
      let _ ← makeEntry depth parentId found.2 kind : Trail Unit) fun _ => kept := by
    refine Ensures.bind (opens_openPath depth root path true) fun parentPath => ?_
    refine reads_get.keeps.ensures fun fs => ?_
    refine (reads_ensure _ _).keeps.ensures fun _ => ?_
    refine Ensures.bind (opens_parentOf root parentPath) fun found => ?_
    refine Ensures.bind (changes_makePathMutable closed depth root path found.1) fun parentId => ?_
    exact Ensures.bind (changes_makeEntry closed depth parentId found.2 kind) fun _ => keeps_pure _
  unfold txnBodyMake
  split
  · exact (reads_ensureTxnRoot root).keeps.ensures fun _ => made
  · exact made

theorem changes_txnBodyDelete (depth : Nat) (root : Root) (path : Bytes) (deleteTree : Bool) :
    Ensures (fun fs => kept fs ∧ SoundFor kinds streams fs) (txnBodyDelete depth root path deleteTree)
      fun _ => kept := by
  refine Ensures.bind (opens_openPath depth root path false) fun parentPath => ?_
  refine (reads_ensureTxnRoot root).keeps.ensures fun _ => ?_
  cases parentPath with
  | root id => exact fun _ _ _ _ ran => by cases ran
  | child node entry parent =>
      exact Ensures.bind (changes_makePathMutable closed depth root path parent) fun parentId =>
        changes_deleteEntry closed depth parentId entry _

theorem changes_txnBodyCopy (depth : Nat) (fromRoot : Root) (fromPath : Bytes) (toRoot : Root)
    (toPath : Bytes) (preserveHistory : Bool) :
    Ensures (fun fs => kept fs ∧ SoundFor kinds streams fs)
      (txnBodyCopy depth fromRoot fromPath toRoot toPath preserveHistory) fun _ => kept := by
  refine (reads_ensureTxnRoot toRoot).keeps.ensures fun _ => ?_
  cases fromRoot with
  | revision rev =>
      refine (reads_getDag depth _ fromPath).keeps.ensures fun fromId => ?_
      refine Ensures.bind (opens_openPath depth toRoot toPath true) fun parentPath => ?_
      refine Ensures.bind (opens_parentOf toRoot parentPath) fun found => ?_
      refine Ensures.bind (changes_makePathMutable closed depth toRoot toPath found.1) fun parentId => ?_
      exact changes_copy closed depth parentId found.2 fromId preserveHistory rev fromPath
  | txn txn => exact fun _ _ _ _ ran => by cases ran
  | id => exact fun _ _ _ _ ran => by cases ran

theorem changes_txnBodyApplyTextdelta (depth : Nat) (root : Root) (path : Bytes) :
    Ensures (fun fs => kept fs ∧ SoundFor kinds streams fs) (txnBodyApplyTextdelta depth root path)
      fun _ => kept := by
  refine Ensures.bind (opens_openPath depth root path false) fun parentPath => ?_
  refine Ensures.bind (changes_makePathMutable closed depth root path parentPath) fun id => ?_
  refine (reads_getNodeRevision id).keeps.ensures fun node => ?_
  refine (reads_ensure _ _).keeps.ensures fun _ fs holds => ?_
  exact Keeps.bind (changes_getEditStream closed depth id) (fun _ => keeps_pure _) fs holds.1

end Bodies

section Merges

variable {risky : Filesystem → Risk → Prop} {kept : Filesystem → Prop} (closed : Closed risky kept)
  {kinds : Nat → NodeKind} {streams : List Stream}

theorem rebases_family {ancestor target source : NodeId} (moves : rebases ancestor target source = true) :
    source.headD 0 = target.headD 0 := by
  have same {other : NodeId} (related : ancestor.head? = other.head?) :
      ancestor.headD 0 = other.headD 0 := by
    rw [List.headD_eq_head?_getD, List.headD_eq_head?_getD, related]
  unfold rebases idDistance at moves
  by_cases one : ancestor.head? = target.head?
  · by_cases two : ancestor.head? = source.head?
    · rw [← same one, ← same two]
    · simp [two] at moves
  · simp [one] at moves

include closed

theorem changes_moveToSuccessor (risks : ∀ fs source target, risky fs (.adopt source target))
    {source target : NodeId} (shaped : Shaped source) (related : source.headD 0 = target.headD 0)
    (isDir : kindOf kinds target = .dir) :
    Ensures (fun fs => kept fs ∧ SoundFor kinds streams fs) (moveToSuccessor source target)
      fun successor fs => kept fs ∧ SoundFor kinds streams fs ∧ successor.headD 0 = source.headD 0 := by
  rintro fs ⟨holds, sound⟩ successor next ran
  have family : kindOf kinds source = kindOf kinds target := by rw [kindOf, kindOf, related]
  have after := keeps_moveToSuccessor shaped family _ sound _ _ ran
  simp only [moveToSuccessor, newSuccessorId, bind_ok, chooseId_ok, getNodeRevision_ok,
    putNodeRevision_ok, pure_ok] at ran
  obtain ⟨id, _, ⟨chosen, within, rfl⟩, node, _, ⟨found, rfl⟩, -, _, ⟨-, rfl⟩, rfl, rfl⟩ := ran
  have directory := (SoundFor.kind sound found).trans isDir
  exact ⟨closed.step holds (.adopt (risks _ _ _) shaped found directory related chosen within), after,
    (newSuccessorId_family (closed.grounded holds).shaped shaped chosen).2⟩

theorem changes_deleteNodeRevision (risks : ∀ fs target, risky fs (.drop target)) {target : NodeId}
    (isDir : kindOf kinds target = .dir) :
    Keeps (fun fs => kept fs ∧ SoundFor kinds streams fs) (deleteNodeRevision target) := by
  refine Ensures.also (fun fs => ?_) (keeps_deleteNodeRevision target)
  rintro ⟨holds, sound⟩ value next ran
  obtain ⟨⟨node, found⟩, rfl⟩ := deleteNodeRevision_ok.mp ran
  exact closed.step holds (.drop (risks _ _) found ((SoundFor.kind sound found).trans isDir))

theorem changes_mergeEntry
    (risks : ∀ fs source target, risky fs (.adopt source target) ∧ risky fs (.drop target))
    {recurse : Bytes → NodeId → NodeId → NodeId → Trail Unit}
    (keeps : ∀ path target source ancestor,
      Keeps (fun fs => kept fs ∧ SoundFor kinds streams fs) (recurse path target source ancestor))
    (depth : Nat) (targetPath : Bytes) (target : NodeId) (name : Bytes) (ancestor : NodeId)
    (source current : Option NodeId) :
    Keeps (fun fs => kept fs ∧ SoundFor kinds streams fs)
      (mergeEntry recurse depth targetPath target name ancestor source current) := by
  have entered (id : NodeId) : Keeps (fun fs => kept fs ∧ SoundFor kinds streams fs)
      (setEntry depth target name id) :=
    Ensures.also (changes_setEntry closed depth target name id) (keeps_setEntry depth target name id)
  unfold mergeEntry
  split
  · next source current =>
      split
      · exact keeps_pure _
      · split
        · exact (reads_ensureMutable target targetPath).keeps.bind fun _ => entered source
        · split
          · exact keeps_pure _
          · rintro fs ⟨holds, sound⟩ value next ran
            simp only [bind_ok, getNodeRevision_ok, ensure_ok] at ran
            obtain ⟨sourceNode, _, ⟨isSource, rfl⟩, currentNode, _, ⟨isCurrent, rfl⟩, ancestorNode, _,
              ⟨-, rfl⟩, -, _, ⟨⟨-, currentDir, -⟩, rfl⟩, _, merged, recursed, ran⟩ := ran
            have shaped := SoundFor.shaped sound isSource
            have isDir := (SoundFor.kind sound isCurrent).symm.trans currentDir
            have after := keeps _ _ _ _ _ ⟨holds, sound⟩ _ _ recursed
            split at ran
            · next moves =>
                have moved : Keeps (fun fs => kept fs ∧ SoundFor kinds streams fs) (do
                    let successor ← moveToSuccessor source current
                    setEntry depth target name successor
                    deleteNodeRevision current : Trail Unit) := by
                  refine Ensures.bind (changes_moveToSuccessor closed (fun fs source target =>
                    (risks fs source target).1) shaped (rebases_family moves) isDir) fun successor => ?_
                  rintro fs ⟨holds, sound, -⟩
                  exact (entered successor).bind (fun _ => changes_deleteNodeRevision closed
                    (fun fs target => (risks fs target target).2) isDir) fs ⟨holds, sound⟩
                exact moved _ after _ _ ran
            · obtain ⟨-, rfl⟩ := pure_ok.mp ran
              exact after
  · exact (reads_ensure _ _).keeps
  · split
    · refine (reads_ensureMutable target targetPath).keeps.bind fun _ => ?_
      exact Ensures.also (changes_deleteEntry closed depth target name false)
        (keeps_deleteEntry depth target name false)
    · exact (reads_ensure _ _).keeps
  · exact keeps_pure _

theorem changes_mergeAddition (depth : Nat) (targetPath : Bytes) (target : NodeId) (name : Bytes)
    (source : NodeId) (current : Option NodeId) :
    Keeps (fun fs => kept fs ∧ SoundFor kinds streams fs)
      (mergeAddition depth targetPath target name source current) := by
  unfold mergeAddition
  split
  · refine (reads_ensureMutable target targetPath).keeps.bind fun _ => ?_
    exact Ensures.also (changes_setEntry closed depth target name source)
      (keeps_setEntry depth target name source)
  · exact (reads_ensure _ _).keeps

theorem changes_merge
    (risks : ∀ fs source target, risky fs (.adopt source target) ∧ risky fs (.drop target))
    (order : HashOrder) (depth fuel : Nat) :
    ∀ (targetPath : Bytes) (target source ancestor : NodeId),
      Keeps (fun fs => kept fs ∧ SoundFor kinds streams fs)
        (merge order depth fuel targetPath target source ancestor) := by
  induction fuel with
  | zero => exact fun _ _ _ _ => (reads_fail _).keeps
  | succ fuel ih =>
      intro targetPath target source ancestor
      apply (reads_ensure _ _).keeps.bind
      intro _
      split
      · exact keeps_pure _
      · apply (reads_getNodeRevision source).keeps.bind
        intro sourceNode
        apply (reads_getNodeRevision target).keeps.bind
        intro targetNode
        apply (reads_getNodeRevision ancestor).keeps.bind
        intro ancestorNode
        apply (reads_ensure _ _).keeps.bind
        intro _
        apply (reads_ensure _ _).keeps.bind
        intro _
        apply (reads_hashIds order depth source).keeps.bind
        intro sources
        apply (reads_hashIds order depth target).keeps.bind
        intro targets
        apply (reads_hashIds order depth ancestor).keeps.bind
        intro ancestors
        apply Keeps.bind
        · exact keeps_forM fun entry _ =>
            changes_mergeEntry closed risks ih depth targetPath target entry.1 entry.2 _ _
        · intro _
          exact keeps_forM fun entry _ =>
            changes_mergeAddition closed depth targetPath target entry.1 entry.2 _

/-- The roots of transactions are numbered zero, and so must be the source. -/
theorem changes_txnBodyMerge
    (risks : ∀ fs source target, risky fs (.adopt source target) ∧ risky fs (.drop target))
    (order : HashOrder) (depth txn : Nat) {source : NodeId} (numbered : source.headD 0 = 0)
    (ancestor : Option NodeId) :
    Ensures (fun fs => kept fs ∧ SoundFor kinds streams fs) (txnBodyMerge order depth txn source ancestor)
      fun _ => kept := by
  have based : Keeps kept (setTxnBase txn source) := changes_setTxnBase closed txn numbered
  have merged (record : Txn) (ancestor : NodeId) : ∀ fs, kept fs ∧ SoundFor kinds streams fs →
      record.Numbered → (∃ node, fs.node record.root = some node) → ∀ value next, (do
        if ancestor = record.root then
          setTxnBase txn source
          setTxnRoot txn source
        else
          merge order depth depth [] record.root source ancestor
          if rebases ancestor record.root source then
            let successor ← moveToSuccessor source record.root
            setTxnRoot txn successor
            deleteNodeRevision record.root
          else pure ()
          setTxnBase txn source : Trail Unit) fs = .ok (value, next) → kept next := by
    rintro fs ⟨holds, sound⟩ isNumbered ⟨root, found⟩ value next ran
    split at ran
    · exact based.bind (fun _ => changes_setTxnRoot closed txn numbered) _ holds _ _ ran
    · obtain ⟨_, middle, ranMerge, ran⟩ := bind_ok.mp ran
      have after := changes_merge closed risks order depth depth [] _ _ _ _ ⟨holds, sound⟩ _ _ ranMerge
      split at ran
      · next moves =>
          have shaped : Shaped source := by
            rcases merge_directories ranMerge with rfl | rfl | ⟨sourceNode, -, isSource, -⟩
            · rw [not_rebases_self] at moves
              cases moves
            · exact SoundFor.shaped sound found
            · exact SoundFor.shaped sound isSource
          have isDir : kindOf kinds record.root = .dir := by
            rw [← SoundFor.kind sound found]
            exact (closed.grounded holds).root found isNumbered.1
          have moved : Ensures (fun fs => kept fs ∧ SoundFor kinds streams fs) (do
              let successor ← moveToSuccessor source record.root
              setTxnRoot txn successor
              deleteNodeRevision record.root
              setTxnBase txn source : Trail Unit) fun _ => kept := by
            refine Ensures.bind (changes_moveToSuccessor closed (fun fs source target =>
              (risks fs source target).1) shaped (rebases_family moves) isDir) fun successor => ?_
            rintro fs ⟨holds, sound, family⟩
            have still : Keeps (SoundFor kinds streams) (setTxnRoot txn successor) :=
              keeps_setTxnRoot txn successor
            have rooted := (changes_setTxnRoot closed txn (family.trans numbered)).and still
            refine rooted.ensures (fun _ => ?_) fs ⟨holds, sound⟩
            exact (changes_deleteNodeRevision closed (fun fs target =>
              (risks fs target target).2) isDir).ensures fun _ fs holds => based fs holds.1
          exact moved _ after _ _ ran
      · exact based _ after.1 _ _ ran
  rintro fs ⟨holds, sound⟩ value next ran
  obtain ⟨record, _, got, afterTxn⟩ := bind_ok.mp ran
  obtain ⟨isRecord, rfl⟩ := getTxn_ok got
  obtain ⟨root, _, isRoot, afterRoot⟩ := bind_ok.mp afterTxn
  obtain ⟨found, rfl⟩ := getNodeRevision_ok.mp isRoot
  have isNumbered := (closed.grounded holds).txns txn record isRecord
  cases ancestor with
  | some ancestor => exact merged record ancestor _ ⟨holds, sound⟩ isNumbered ⟨root, found⟩ _ _ afterRoot
  | none =>
      obtain ⟨base, _, isBase, afterBase⟩ := bind_ok.mp afterRoot
      obtain ⟨-, rfl⟩ := getNodeRevision_ok.mp isBase
      exact merged record record.base _ ⟨holds, sound⟩ isNumbered ⟨root, found⟩ _ _ afterBase

end Merges

end Subversion.Fs.Trail

namespace Subversion.Fs

open Transactions

/-- The risks of the operation may be taken. Merges start from roots, which are numbered zero. -/
def FsOp.Permitted (risky : Filesystem → Risk → Prop) (fs : Filesystem) : FsOp → Prop
  | .merge _ source _ => source.headD 0 = 0 ∧
      ∀ fs source target, risky fs (.adopt source target) ∧ risky fs (.drop target)
  | .writeContents stream _ => risky fs (.write stream.key)
  | .deltify _ _ true _ => ∀ source node, fs.node source = some node →
      node.rev ≠ none ∨ ∀ fs, risky fs (.deltify source)
  | _ => True

namespace Trail

/-- What single changes keep is kept by every operation whose risks may be taken. -/
theorem changes_runFsOp {risky : Filesystem → Risk → Prop} {kept : Filesystem → Prop}
    (closed : Closed risky kept) (order : HashOrder) (depth : Nat) {op : FsOp} {streams opened : List Stream}
    {fs next : Filesystem} (holds : kept fs) (sound : SoundIn streams fs)
    (permitted : op.Permitted risky fs) (ran : runFsOp order depth op fs = .ok (opened, next)) :
    kept next := by
  obtain ⟨kinds, sound⟩ := sound
  have quiet {A : Type} {program : Trail A} (ensures : Ensures
      (fun fs => kept fs ∧ SoundFor kinds streams fs) program fun _ => kept) :
      Ensures (fun fs => kept fs ∧ SoundFor kinds streams fs) (do
        let _ ← program
        pure [] : Trail (List Stream)) fun _ => kept := Ensures.bind ensures fun _ => keeps_pure _
  have start := And.intro holds sound
  cases op with
  | changeNodeProp root path name value =>
      exact quiet (changes_txnBodyChangeNodeProp closed depth root path name value) fs start _ _ ran
  | make root path kind => exact quiet (changes_txnBodyMake closed depth root path kind) fs start _ _ ran
  | delete root path deleteTree =>
      exact quiet (changes_txnBodyDelete closed depth root path deleteTree) fs start _ _ ran
  | copy fromRoot fromPath toRoot toPath preserveHistory =>
      exact quiet (changes_txnBodyCopy closed depth fromRoot fromPath toRoot toPath preserveHistory) fs start
        _ _ ran
  | applyTextdelta root path =>
      exact Ensures.bind (changes_txnBodyApplyTextdelta closed depth root path) (fun _ => keeps_pure _) fs
        start _ _ ran
  | writeContents stream bytes =>
      obtain ⟨_, middle, changed, last⟩ := bind_ok.mp ran
      obtain ⟨store, wrote, rfl⟩ := changeStore_ok.mp changed
      obtain ⟨-, rfl⟩ := pure_ok.mp last
      exact closed.step holds (.write permitted wrote)
  | finalizeEdits stream =>
      exact Keeps.bind (changes_finalizeEdits closed stream.node) (fun _ => keeps_pure _) fs holds _ _ ran
  | beginTxn rev =>
      obtain ⟨txn, middle, begun, last⟩ := bind_ok.mp ran
      obtain ⟨root, _, got, created⟩ := bind_ok.mp begun
      obtain ⟨isRoot, rfl⟩ := revGetRoot_ok got
      have numbered := (closed.grounded holds).revisions root (List.mem_of_getElem? isRoot)
      obtain ⟨-, rfl⟩ := pure_ok.mp last
      exact changes_createTxn closed numbered _ holds _ _ created
  | merge txn source ancestor =>
      exact quiet (changes_txnBodyMerge closed permitted.2 order depth txn permitted.1 ancestor) fs start _ _
        ran
  | commitTxn txn =>
      exact Keeps.bind (changes_txnBodyCommit closed depth txn) (fun _ => keeps_pure _) fs holds _ _ ran
  | abortTxn txn =>
      have aborted : Keeps kept (txnBodyAbortTxn depth txn) :=
        (reads_getTxn txn).keeps.bind fun record =>
          (changes_deleteIfMutable closed depth depth record.root).bind fun _ => changes_deleteTxn closed txn
      exact aborted.bind (fun _ => keeps_pure _) fs holds _ _ ran
  | deltify rev path doDeltify recursive =>
      have settled (deltifies : doDeltify = true) : ∀ source node, fs.node source = some node →
          node.rev ≠ none ∨ ∀ fs, risky fs (.deltify source) := by
        subst deltifies
        exact permitted
      have deltified : Keeps (fun other => kept other ∧ other.node = fs.node)
          (txnBodyDeltify order depth rev path doDeltify recursive) :=
        (reads_getDag depth _ path).keeps.bind fun id =>
          changes_deltifyUndeltify closed order depth recursive settled depth id
      exact (deltified.bind (fun _ => keeps_pure _) fs ⟨holds, rfl⟩ _ _ ran).1

end Trail

end Subversion.Fs
