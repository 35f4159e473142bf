/-
This file shows that the operations on nodes are series of single changes.
-/

import Subversion.Fs.Families
import Subversion.Fs.Revisions

namespace Subversion.Fs

open Delta Transactions

section Store

variable {store next : Store} {key : Nat}

theorem Mutable.of_clear (invariant : RepsInvariant store)
    (cleared : repContentsClear store key = .ok next) : Mutable store key ∧ Mutable next key := by
  obtain ⟨rep, strKey, found, mutable, -, -, replaces, -⟩ := invariant.repContentsClear_replaces cleared
  exact ⟨⟨rep, found, mutable⟩, ⟨rep, replaces.this, mutable⟩⟩

theorem Mutable.write (invariant : RepsInvariant store) {bytes : Bytes} (mutable : Mutable store key)
    (wrote : repWrite store key bytes = .ok next) : Mutable next key := by
  obtain ⟨rep, strKey, found, -, -, replaces, -⟩ := invariant.repWrite_replaces wrote
  obtain ⟨other, isOther, flag⟩ := mutable
  rw [found] at isOther
  cases isOther
  exact ⟨rep, replaces.this, flag⟩

theorem Mutable.of_getMutableRep (invariant : RepsInvariant store) {depth : Nat} {rep : Option Nat}
    (got : getMutableRep store depth rep = .ok (key, next)) : Mutable next key := by
  rcases invariant.getMutableRep_replaces got with ⟨-, rfl, mutable⟩ | ⟨-, -, strKey, _, replaces, -⟩
  · exact mutable
  · exact ⟨_, replaces.this, rfl⟩

end Store

namespace Trail

/-- The property is kept by single changes, and the reps were made by operations on them. -/
structure Closed (risky : Filesystem → Risk → Prop) (kept : Filesystem → Prop) : Prop where
  step : ∀ {fs next}, kept fs → Change risky fs next → kept next
  reps : ∀ {fs}, kept fs → RepsReachable fs.store
  grounded : ∀ {fs}, kept fs → Grounded fs

/-- If the node is there, it is mutable. -/
def Loose (id : NodeId) : Filesystem → Prop := AllNodes fun other node => other = id → node.rev = none

section Steps

variable {risky : Filesystem → Risk → Prop} {kept : Filesystem → Prop} (closed : Closed risky kept)
include closed

theorem Closed.invariant {fs : Filesystem} (holds : kept fs) : RepsInvariant fs.store :=
  (closed.reps holds).invariant

theorem changes_putTxn {fs next : Filesystem} (holds : kept fs) {txn : Nat} {old record : Txn}
    (there : fs.txns.lookup txn = some old) (numbered : record.Numbered) {value : Unit}
    (ran : putTxn txn record fs = .ok (value, next)) : kept next := by
  cases ran
  refine closed.step holds (.txns fs.nextTxn (fun other found stored => ?_) ⟨le_rfl, fun other found stored => ?_⟩)
  · by_cases same : other = txn
    · rw [same, AList.lookup_insert] at stored
      cases stored
      exact numbered
    · rw [AList.lookup_insert_ne same] at stored
      exact (closed.grounded holds).txns other found stored
  · by_cases same : other = txn
    · exact Or.inr ⟨old, same ▸ there⟩
    · rw [AList.lookup_insert_ne same] at stored
      exact Or.inr ⟨found, stored⟩

theorem changes_setTxnRoot (txn : Nat) {root : NodeId} (numbered : root.headD 0 = 0) :
    Keeps kept (setTxnRoot txn root) := by
  intro fs holds value next ran
  obtain ⟨record, _, got, rest⟩ := bind_ok.mp ran
  obtain ⟨found, same⟩ := getTxn_ok got
  rw [same] at rest
  split at rest
  · exact keeps_pure _ _ holds _ _ rest
  · have changed : Txn.Numbered { record with root := root } :=
      ⟨numbered, ((closed.grounded holds).txns txn record found).2⟩
    exact changes_putTxn closed holds found changed rest

theorem changes_setTxnBase (txn : Nat) {base : NodeId} (numbered : base.headD 0 = 0) :
    Keeps kept (setTxnBase txn base) := by
  intro fs holds value next ran
  obtain ⟨record, _, got, rest⟩ := bind_ok.mp ran
  obtain ⟨found, same⟩ := getTxn_ok got
  rw [same] at rest
  split at rest
  · exact keeps_pure _ _ holds _ _ rest
  · have changed : Txn.Numbered { record with base := base } :=
      ⟨((closed.grounded holds).txns txn record found).1, numbered⟩
    exact changes_putTxn closed holds found changed rest

theorem changes_createTxn {root : NodeId} (numbered : root.headD 0 = 0) :
    Keeps kept (createTxn root) := by
  intro fs holds value next ran
  unfold createTxn at ran
  split at ran
  · cases ran
  · cases ran
    refine closed.step holds (.txns (fs.nextTxn + 1) (fun other found stored => ?_)
      ⟨Nat.le_succ _, fun other found stored => ?_⟩)
    · by_cases same : other = fs.nextTxn
      · rw [same, AList.lookup_insert] at stored
        cases stored
        exact ⟨numbered, numbered⟩
      · rw [AList.lookup_insert_ne same] at stored
        exact (closed.grounded holds).txns other found stored
    · by_cases same : other = fs.nextTxn
      · exact Or.inl (same ▸ Nat.lt_succ_self _)
      · rw [AList.lookup_insert_ne same] at stored
        exact Or.inr ⟨found, stored⟩

theorem changes_deleteTxn (txn : Nat) : Keeps kept (deleteTxn txn) := by
  intro fs holds value next ran
  unfold deleteTxn at ran
  split at ran
  · cases ran
    have before (other : Nat) (found : Txn) (stored : (fs.txns.erase txn).lookup other = some found) :
        fs.txns.lookup other = some found := by
      by_cases same : other = txn
      · rw [same, AList.lookup_erase] at stored
        cases stored
      · rwa [AList.lookup_erase_ne same] at stored
    exact closed.step holds (.txns fs.nextTxn
      (fun other found stored => (closed.grounded holds).txns other found (before other found stored))
      ⟨le_rfl, fun other found stored => Or.inr ⟨found, before other found stored⟩⟩)
  · cases ran

theorem changes_deleteRepOf (key : Option Nat) : Keeps kept (deleteRepOf key) := by
  unfold deleteRepOf
  split
  · exact keeps_pure _
  · intro fs holds value next ran
    obtain ⟨store, deleted, rfl⟩ := changeStore_ok.mp ran
    exact closed.step holds (.deleteRep deleted)

omit closed in
theorem allNodes_deleteRepOf (holds : NodeId → NodeRev → Prop) (key : Option Nat) :
    Keeps (AllNodes holds) (deleteRepOf key) := by
  unfold deleteRepOf
  split
  · exact keeps_pure _
  · intro fs all value next ran
    obtain ⟨store, -, rfl⟩ := changeStore_ok.mp ran
    exact all

omit closed in
/-- Nodes are only erased. -/
theorem allNodes_deleteIfMutable (holds : NodeId → NodeRev → Prop) (depth fuel : Nat) :
    ∀ id : NodeId, Keeps (AllNodes holds) (deleteIfMutable depth fuel id) := by
  induction fuel with
  | zero => exact fun _ => (reads_fail _).keeps
  | succ fuel ih =>
      intro id
      apply (reads_getNodeRevision id).keeps.bind
      intro node
      have erased : Keeps (AllNodes holds) (deleteNodeRevision id) := by
        intro fs all value next ran other found present
        obtain ⟨-, rfl⟩ := deleteNodeRevision_ok.mp ran
        rw [Filesystem.node_eraseNode] at present
        split at present
        · cases present
        · exact all other found present
      have clean : Keeps (AllNodes holds) (do
          deleteRepOf node.propKey
          deleteRepOf node.dataKey
          deleteRepOf node.editKey
          deleteNodeRevision id : Trail Unit) :=
        (allNodes_deleteRepOf holds _).bind fun _ => (allNodes_deleteRepOf holds _).bind fun _ =>
          (allNodes_deleteRepOf holds _).bind fun _ => erased
      split
      · exact keeps_pure _
      · split
        · apply (reads_dirEntriesSkel depth id).keeps.bind
          intro entries
          refine Keeps.bind (keeps_forM fun entry _ => ?_) fun _ => clean
          exact (reads_readStore _).keeps.bind ih
        · exact clean

/-- What is removed was mutable before its children were removed, and so it still is. -/
theorem changes_deleteIfMutable (depth fuel : Nat) :
    ∀ id : NodeId, Keeps kept (deleteIfMutable depth fuel id) := by
  induction fuel with
  | zero => exact fun _ => (reads_fail _).keeps
  | succ fuel ih =>
      intro id fs holds value next ran
      obtain ⟨node, _, got, rest⟩ := bind_ok.mp ran
      obtain ⟨found, same⟩ := getNodeRevision_ok.mp got
      rw [same] at rest
      have delete (key : Option Nat) : Keeps (fun fs => kept fs ∧ Loose id fs) (deleteRepOf key) :=
        (changes_deleteRepOf closed key).and (allNodes_deleteRepOf _ key)
      have clean : Ensures (fun fs => kept fs ∧ Loose id fs) (do
          deleteRepOf node.propKey
          deleteRepOf node.dataKey
          deleteRepOf node.editKey
          deleteNodeRevision id : Trail Unit) fun _ => kept := by
        refine (delete node.propKey).ensures fun _ => ?_
        refine (delete node.dataKey).ensures fun _ => ?_
        refine (delete node.editKey).ensures fun _ => ?_
        rintro fs ⟨holds, loose⟩ value next ran
        obtain ⟨⟨other, present⟩, rfl⟩ := deleteNodeRevision_ok.mp ran
        exact closed.step holds (.remove present (loose id other present rfl))
      split at rest
      · obtain ⟨-, rfl⟩ := pure_ok.mp rest
        exact holds
      · next mutable =>
          have loose : Loose id fs := by
            rintro _ other present rfl
            rw [found] at present
            cases present
            simpa using mutable
          split at rest
          · obtain ⟨entries, _, read, rest⟩ := bind_ok.mp rest
            rw [reads_dirEntriesSkel depth id _ _ _ read] at rest
            refine Keeps.ensures (keeps_forM fun entry _ => ?_) (fun _ => clean) fs ⟨holds, loose⟩ _ _ rest
            exact (reads_readStore _).keeps.bind fun child =>
              (ih child).and (allNodes_deleteIfMutable _ depth fuel child)
          · exact clean fs ⟨holds, loose⟩ _ _ rest

theorem changes_streamWrite (key : Nat) (bytes : Bytes) :
    Ensures (fun fs => kept fs ∧ NoProps key fs ∧ Mutable fs.store key) (streamWrite key bytes)
      fun _ fs => kept fs ∧ NoProps key fs := by
  rintro fs ⟨holds, noProps, mutable⟩ value next ran
  unfold streamWrite at ran
  split at ran
  · next store wrote =>
      cases ran
      exact ⟨closed.step holds (.rewrite noProps mutable wrote), noProps⟩
  · cases ran
    exact ⟨holds, noProps⟩

theorem changes_rewriteEntries (depth key : Nat) (change : List Entry → List Entry) :
    Ensures (fun fs => kept fs ∧ NoProps key fs) (rewriteEntries depth key change) fun _ => kept := by
  refine (reads_readStore _).keeps.ensures fun entries => ?_
  rintro fs ⟨holds, noProps⟩ value next ran
  obtain ⟨_, _, changed, ran⟩ := bind_ok.mp ran
  obtain ⟨store, cleared, rfl⟩ := changeStore_ok.mp changed
  obtain ⟨-, mutable⟩ := Mutable.of_clear (closed.invariant holds) cleared
  exact (changes_streamWrite closed key _ _ ⟨closed.step holds (.clear noProps cleared), noProps,
    mutable⟩ _ _ ran).1

variable {kinds : Nat → NodeKind} {streams : List Stream} {fs next : Filesystem}

/-- The list of entries has a rep of its own. -/
theorem changes_mutableDataKey (holds : kept fs) (sound : SoundFor kinds streams fs) {id : NodeId}
    {node : NodeRev} {depth key : Nat} (found : fs.node id = some node) (mutable : node.rev = none)
    (isDir : node.kind = .dir) (ran : mutableDataKey depth id node fs = .ok (key, next)) :
    kept next ∧ NoProps key next ∧ Mutable next.store key := by
  obtain ⟨lists, sound⟩ := sound
  obtain ⟨store, got, ends⟩ := mutableDataKey_ok.mp ran
  have owned := Mutable.of_getMutableRep (closed.invariant holds) got
  have noProps : NoProps key fs := by
    intro other found' present named
    obtain ⟨small, unlisted⟩ := (sound.fits present).prop key named
    rcases (closed.invariant holds).getMutableRep_replaces got with ⟨same, -⟩ | ⟨rfl, -⟩
    · exact unlisted (((sound.fits found).data key same).2.mpr isDir)
    · exact lt_irrefl _ small
  split at ends
  · next same =>
      rcases (closed.invariant holds).getMutableRep_replaces got with ⟨-, rfl, -⟩ | ⟨rfl, -⟩
      · rw [ends]
        exact ⟨holds, noProps, owned⟩
      · exact absurd ((sound.fits found).data _ same).1 (lt_irrefl _)
  · next other =>
      obtain ⟨-, rfl⟩ := ends
      refine ⟨closed.step holds (.ownData found mutable got other), ?_, owned⟩
      intro changed found' present
      rw [Filesystem.node_putNode] at present
      split at present
      · cases present
        exact noProps id node found
      · exact noProps changed found' present

theorem changes_setEntryUnchecked (holds : kept fs) (sound : SoundFor kinds streams fs)
    {parent id : NodeId} {depth : Nat} {name : Bytes} {value : Unit}
    (isDir : ∀ node, fs.node parent = some node → node.rev = none ∧ node.kind = .dir)
    (ran : setEntryUnchecked depth parent name id fs = .ok (value, next)) : kept next := by
  obtain ⟨node, _, got, ran⟩ := bind_ok.mp ran
  obtain ⟨found, same⟩ := getNodeRevision_ok.mp got
  rw [same] at ran
  obtain ⟨key, middle, keyed, ran⟩ := bind_ok.mp ran
  obtain ⟨mutable, dir⟩ := isDir node found
  obtain ⟨after, noProps, owned⟩ := changes_mutableDataKey closed holds sound found mutable dir keyed
  split at ran
  · exact (changes_streamWrite closed key _).bind (fun _ => changes_rewriteEntries closed depth key _) _
      ⟨after, noProps, owned⟩ _ _ ran
  · exact changes_rewriteEntries closed depth key _ _ ⟨after, noProps⟩ _ _ ran

theorem changes_setEntry (depth : Nat) (parent : NodeId) (name : Bytes) (id : NodeId) :
    Ensures (fun fs => kept fs ∧ SoundFor kinds streams fs) (setEntry depth parent name id)
      fun _ => kept := by
  rintro fs ⟨holds, sound⟩ value next ran
  simp only [setEntry, bind_ok, getNodeRevision_ok, ensure_ok] at ran
  obtain ⟨node, _, ⟨found, rfl⟩, -, _, ⟨isDir, rfl⟩, -, _, ⟨mutable, rfl⟩, ran⟩ := ran
  refine changes_setEntryUnchecked closed holds sound (fun other present => ?_) ran
  rw [found] at present
  cases present
  exact ⟨mutable, isDir⟩

/-- A new node is mutable, so the parent still is. -/
theorem changes_makeEntry (depth : Nat) (parent : NodeId) (name : Bytes) (kind : NodeKind) :
    Ensures (fun fs => kept fs ∧ SoundFor kinds streams fs) (makeEntry depth parent name kind)
      fun _ => kept := by
  rintro fs ⟨holds, sound⟩ value next ran
  simp only [makeEntry, bind_ok, getNodeRevision_ok, ensure_ok, pure_ok] at ran
  obtain ⟨-, _, ⟨-, rfl⟩, node, _, ⟨found, rfl⟩, -, _, ⟨isDir, rfl⟩, -, _, ⟨mutable, rfl⟩, entries, middle,
    read, -, _, ⟨-, rfl⟩, id, between, created, _, last, ranSet, rfl, rfl⟩ := ran
  obtain rfl := reads_dirEntriesSkel depth parent _ _ _ read
  obtain ⟨kinds', after, -⟩ := createNode_sound sound (fun lists _ => ⟨by simp, by simp, by simp⟩) created
  obtain ⟨chosen, within, -, rfl⟩ := createNode_ok.mp created
  have distinct : parent ≠ value := by
    obtain ⟨lists, sound⟩ := sound
    obtain ⟨-, others⟩ := newNodeId_family sound.shaped sound.withinLimit chosen
    rintro rfl
    exact lt_irrefl _ (others parent ((Filesystem.mem_entries _ parent).mpr ⟨node, found⟩))
  refine changes_setEntryUnchecked closed (closed.step holds (.create kind chosen within)) after ?_ ranSet
  intro other present
  rw [Filesystem.node_putNode, if_neg distinct, found] at present
  cases present
  exact ⟨mutable, isDir⟩

theorem changes_setProplist (depth : Nat) (id : NodeId) (proplist : Skel) :
    Keeps kept (setProplist depth id proplist) := by
  intro fs holds value next ran
  simp only [setProplist, bind_ok, getNodeRevision_ok, ensure_ok, withStore_ok] at ran
  obtain ⟨node, _, ⟨found, rfl⟩, -, _, ⟨mutable, rfl⟩, -, _, ⟨valid, rfl⟩, key, _, ⟨first, got, rfl⟩, ran⟩ := ran
  split at ran
  · next same =>
      simp only [bind_ok, changeStore_ok] at ran
      obtain ⟨-, _, ⟨second, cleared, rfl⟩, store, wrote, rfl⟩ := ran
      exact closed.step holds (.resetProps found mutable ⟨valid, depth, first, second, got, cleared, wrote⟩ same)
  · next other =>
      simp only [bind_ok, changeStore_ok, putNodeRevision_ok] at ran
      obtain ⟨_, _, ⟨-, rfl⟩, -, _, ⟨second, cleared, rfl⟩, store, wrote, rfl⟩ := ran
      exact closed.step holds (.setProps found mutable ⟨valid, depth, first, second, got, cleared, wrote⟩ other)

/-- A clone is mutable, and its parent still is. -/
theorem changes_cloneChild (depth : Nat) (parent : NodeId) (name : Bytes) :
    Ensures (fun fs => kept fs ∧ SoundFor kinds streams fs) (cloneChild depth parent name)
      fun _ => kept := by
  rintro fs ⟨holds, sound⟩ value next ran
  simp only [cloneChild, bind_ok, getNodeRevision_ok, ensure_ok] at ran
  obtain ⟨parentNode, _, ⟨isParent, rfl⟩, -, _, ⟨mutable, rfl⟩, -, _, ⟨-, rfl⟩, current, middle, opened,
    child, _, ⟨found, rfl⟩, ran⟩ := ran
  obtain ⟨node, isNode, isDir⟩ := openChild_dir opened
  rw [isParent] at isNode
  cases isNode
  obtain rfl := reads_openChild depth parent name _ _ _ opened
  split at ran
  · obtain ⟨-, rfl⟩ := pure_ok.mp ran
    exact holds
  · next committed =>
      simp only [bind_ok, createSuccessor_ok, pure_ok] at ran
      obtain ⟨id, _, ⟨chosen, within, -, rfl⟩, _, last, entered, -, rfl⟩ := ran
      have cloned := putSuccessor_sound sound (makeMutable child) (SoundFor.shaped sound found)
        chosen within found (SoundFor.kind sound found).symm ⟨rfl, rfl, rfl, rfl⟩
      have distinct : parent ≠ id := by
        obtain ⟨lists, sound⟩ := sound
        have fresh := chosen_fresh sound.shaped sound.withinLimit
          ((Filesystem.mem_entries _ current).mpr ⟨child, found⟩) chosen
        rintro rfl
        exact fresh ((Filesystem.mem_entries _ parent).mpr ⟨parentNode, isParent⟩)
      refine changes_setEntryUnchecked closed (closed.step holds (.succeed found committed chosen within))
        cloned (fun other present => ?_) entered
      rw [Filesystem.node_putNode, if_neg distinct, isParent] at present
      cases present
      exact ⟨mutable, isDir⟩

/-- The root that is cloned is not mutable. -/
theorem changes_cloneRoot (txn : Nat) :
    Ensures (fun fs => kept fs ∧ ∀ record, fs.txns.lookup txn = some record → ∀ node,
      fs.node record.root = some node → node.rev ≠ none) (cloneRoot txn) fun _ => kept := by
  rintro fs ⟨holds, committed⟩ value next ran
  obtain ⟨record, _, got, rest⟩ := bind_ok.mp ran
  obtain ⟨isRecord, same⟩ := getTxn_ok got
  rw [same] at rest
  split at rest
  · next unchanged =>
      simp only [bind_ok, getNodeRevision_ok, createSuccessor_ok, pure_ok] at rest
      obtain ⟨node, _, ⟨found, rfl⟩, id, _, ⟨chosen, within, -, rfl⟩, _, last, rooted, -, rfl⟩ := rest
      have cloned := closed.step holds (.succeed found (committed record isRecord node
        (by rw [unchanged]; exact found)) chosen within)
      have family := ((closed.grounded holds).successor found chosen).2
      have numbered := ((closed.grounded holds).txns txn record isRecord).2
      exact changes_setTxnRoot closed txn (family.trans numbered) _ cloned _ _ rooted
  · simp only [bind_ok, getNodeRevision_ok, pure_ok] at rest
    obtain ⟨_, _, ⟨-, rfl⟩, -, rfl⟩ := rest
    exact holds

theorem changes_deleteEntry (depth : Nat) (parent : NodeId) (name : Bytes) (requireEmpty : Bool) :
    Ensures (fun fs => kept fs ∧ SoundFor kinds streams fs) (deleteEntry depth parent name requireEmpty)
      fun _ => kept := by
  rintro fs ⟨holds, sound⟩ value next ran
  obtain ⟨node, key, middle, raw, entries, child, deleted, found, isDir, mutable, -, keyed, -, -, ranDelete,
    last⟩ := deleteEntry_ok ran
  obtain ⟨after, noProps, -⟩ := changes_mutableDataKey closed holds sound found mutable isDir keyed
  obtain ⟨gone, still⟩ := (changes_deleteIfMutable closed depth depth child).and
    (allNodes_deleteIfMutable _ depth depth child) middle ⟨after, noProps⟩ _ _ ranDelete
  simp only [bind_ok, changeStore_ok] at last
  obtain ⟨-, _, ⟨first, cleared, rfl⟩, second, wrote, rfl⟩ := last
  obtain ⟨-, owned⟩ := Mutable.of_clear (closed.invariant gone) cleared
  exact closed.step (closed.step gone (.clear still cleared)) (.rewrite still owned wrote)

theorem changes_getEditStream (depth : Nat) (id : NodeId) : Keeps kept (getEditStream depth id) := by
  intro fs holds key next ran
  simp only [getEditStream, bind_ok, getNodeRevision_ok, ensure_ok, withStore_ok, get_ok, pure_ok,
    putNodeRevision_ok] at ran
  obtain ⟨node, _, ⟨found, rfl⟩, -, _, ⟨isFile, rfl⟩, -, _, ⟨mutable, rfl⟩, _, middle, deleted, other, _,
    ⟨store, got, rfl⟩, _, _, ⟨rfl, rfl⟩, -, _, ⟨unedited, rfl⟩, -, _, ⟨-, rfl⟩, rfl, rfl⟩ := ran
  rw [unedited] at deleted
  obtain ⟨-, rfl⟩ := pure_ok.mp deleted
  exact closed.step holds (.ownEdit found isFile mutable unedited got)

theorem changes_finalizeEdits (id : NodeId) : Keeps kept (finalizeEdits id) := by
  intro fs holds value next ran
  simp only [finalizeEdits, bind_ok, getNodeRevision_ok, ensure_ok] at ran
  obtain ⟨node, _, ⟨found, rfl⟩, -, _, ⟨mutable, rfl⟩, ran⟩ := ran
  cases edited : node.editKey with
  | none =>
      rw [edited] at ran
      obtain ⟨-, rfl⟩ := pure_ok.mp ran
      exact holds
  | some key =>
      rw [edited] at ran
      simp only [bind_ok, putNodeRevision_ok] at ran
      obtain ⟨-, _, ⟨-, rfl⟩, ran⟩ := ran
      exact changes_deleteRepOf closed node.dataKey _ (closed.step holds (.finalize found mutable edited)) _ _
        ran

theorem changes_copy (depth : Nat) (toNode : NodeId) (name : Bytes) (fromNode : NodeId)
    (preserveHistory : Bool) (fromRev : Nat) (fromPath : Bytes) :
    Ensures (fun fs => kept fs ∧ SoundFor kinds streams fs)
      (copy depth toNode name fromNode preserveHistory fromRev fromPath) fun _ => kept := by
  rintro fs ⟨holds, sound⟩ value next ran
  unfold copy at ran
  split at ran
  · simp only [bind_ok, getNodeRevision_ok] at ran
    obtain ⟨node, _, ⟨found, rfl⟩, id, middle, created, ran⟩ := ran
    obtain ⟨kinds', after, -⟩ := createNode_sound sound (fun lists sound => by
      obtain ⟨prop, edit, data⟩ := sound.fits found
      exact ⟨prop, edit, data⟩) created
    obtain ⟨chosen, within, -, rfl⟩ := createNode_ok.mp created
    exact changes_setEntry closed depth toNode name id _
      ⟨closed.step holds (.copy (fromRev, fromPath) found chosen within), after⟩ _ _ ran
  · exact changes_setEntry closed depth toNode name fromNode _ ⟨holds, sound⟩ _ _ ran

end Steps

end Trail

end Subversion.Fs
