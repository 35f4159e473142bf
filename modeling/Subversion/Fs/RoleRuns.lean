/-
This file shows that every run of a filesystem keeps lists of entries apart from other texts.
-/

import Subversion.Fs.EntryWrites

namespace Subversion.Fs

open Cursor Delta Framing Transactions

namespace Trail

section Reading

variable {A : Type}

theorem reads_fail (error : SvnError) : Reads (fail error : Trail A) := fun _ _ _ ran => nomatch ran

theorem reads_ensure (condition : Prop) [Decidable condition] (error : SvnError) :
    Reads (ensure condition error) := fun _ _ _ ran => (ensure_ok.mp ran).2

theorem reads_readStore (read : Store → Except SvnError A) : Reads (readStore read) :=
  fun _ _ _ ran => (readStore_ok.mp ran).2

theorem reads_getNodeRevision (id : NodeId) : Reads (getNodeRevision id) :=
  fun _ _ _ ran => (getNodeRevision_ok.mp ran).2

theorem reads_getDirEntries (depth : Nat) (node : NodeRev) : Reads (getDirEntries depth node) := by
  unfold getDirEntries
  split
  · exact reads_fail _
  · split
    · exact reads_pure _
    · exact reads_readStore _

theorem reads_dirEntriesSkel (depth : Nat) (id : NodeId) : Reads (dirEntriesSkel depth id) := by
  apply (reads_getNodeRevision id).bind
  intro node
  exact (reads_ensure _ _).bind fun _ => reads_getDirEntries depth node

theorem reads_openChild (depth : Nat) (parent : NodeId) (name : Bytes) :
    Reads (openChild depth parent name) := by
  apply (reads_dirEntriesSkel depth parent).bind
  intro entries
  split
  · exact reads_fail _
  · apply (reads_ensure _ _).bind
    intro _
    apply (reads_readStore _).bind
    intro id
    exact (reads_getNodeRevision id).bind fun _ => reads_pure id

theorem reads_getProplist (depth : Nat) (id : NodeId) : Reads (getProplist depth id) := by
  apply (reads_getNodeRevision id).bind
  intro node
  split
  · exact reads_pure _
  · exact reads_readStore _

theorem reads_dirEntriesHash (depth : Nat) (id : NodeId) : Reads (dirEntriesHash depth id) :=
  (reads_dirEntriesSkel depth id).bind fun _ => reads_pure _

theorem reads_hashIds (order : HashOrder) (depth : Nat) (id : NodeId) :
    Reads (hashIds order depth id) :=
  (reads_dirEntriesHash depth id).bind fun _ => reads_readStore _

theorem reads_getTxn (txn : Nat) : Reads (getTxn txn) := by
  intro fs record next ran
  unfold getTxn at ran
  split at ran
  · split at ran
    · cases ran
      rfl
    · cases ran
  · cases ran

theorem reads_revGetRoot (rev : Nat) : Reads (revGetRoot rev) := by
  intro fs root next ran
  unfold revGetRoot at ran
  split at ran
  · cases ran
  · split at ran
    · cases ran
      rfl
    · cases ran

theorem reads_youngestRev : Reads youngestRev := by
  intro fs rev next ran
  unfold youngestRev at ran
  split at ran
  · cases ran
  · cases ran
    rfl

theorem reads_rootNode (root : Root) : Reads (rootNode root) := by
  have last (id : NodeId) : Reads (do
      let _ ← getNodeRevision id
      pure id : Trail NodeId) := (reads_getNodeRevision id).bind fun _ => reads_pure id
  cases root with
  | revision rev => exact (reads_revGetRoot rev).bind last
  | txn txn => exact (reads_getTxn txn).bind fun record => last record.root
  | id => exact (reads_fail _).bind last

theorem reads_ensureDirectory (id : NodeId) (path : Bytes) : Reads (ensureDirectory id path) := by
  apply (reads_getNodeRevision id).bind
  intro node
  exact reads_get.bind fun _ => reads_ensure _ _

theorem reads_openPathFrom (depth : Nat) (root : Root) (path : Bytes) (lastOptional : Bool)
    (fuel : Nat) :
    ∀ (here : NodeId) (parentPath : ParentPath) (rest : Bytes),
      Reads (openPathFrom depth root path lastOptional fuel here parentPath rest) := by
  induction fuel with
  | zero => exact fun _ _ _ => reads_fail _
  | succ fuel ih =>
      intro here parentPath rest
      unfold openPathFrom
      dsimp only
      split
      · split
        · exact reads_pure _
        · exact (reads_ensureDirectory here path).bind fun _ => ih _ _ _
      · intro fs value next ran
        dsimp only at ran
        split at ran
        · next child middle opened =>
            rw [← reads_openChild depth here _ fs child middle opened]
            cases behind : (nextEntryName rest).2 with
            | none =>
                rw [behind] at ran
                exact reads_pure _ middle value next ran
            | some more =>
                rw [behind] at ran
                exact ((reads_ensureDirectory child path).bind fun _ => ih _ _ _) middle value next ran
        · split at ran
          · split at ran
            · cases ran
              rfl
            · cases ran
          · cases ran

theorem reads_openPath (depth : Nat) (root : Root) (path : Bytes) (lastOptional : Bool) :
    Reads (openPath depth root path lastOptional) := by
  unfold openPath
  split
  · split
    · exact reads_fail _
    · split
      · exact reads_fail _
      · exact (reads_getNodeRevision _).bind fun _ => reads_pure _
  · exact (reads_rootNode _).bind fun here => reads_openPathFrom depth _ path lastOptional _ here _ path

theorem reads_getDag (depth : Nat) (root : Root) (path : Bytes) : Reads (getDag depth root path) := by
  apply (reads_openPath depth root path false).bind
  intro parentPath
  split
  · exact reads_pure _
  · exact reads_fail _

theorem reads_parentOf (parentPath : ParentPath) : Reads (parentOf parentPath) := by
  unfold parentOf
  split
  · exact reads_fail _
  · exact reads_pure _

theorem reads_ensureTxnRoot (root : Root) : Reads (ensureTxnRoot root) := by
  unfold ensureTxnRoot
  split
  · exact reads_pure _
  · exact reads_fail _

theorem reads_ensureMutable (target : NodeId) (path : Bytes) : Reads (ensureMutable target path) :=
  (reads_getNodeRevision target).bind fun _ => reads_ensure _ _

end Reading

section Keeping

variable {kinds : Nat → NodeKind} {streams : List Stream} {fs next : Filesystem}

theorem SoundFor.kind (holds : SoundFor kinds streams fs) {id : NodeId} {node : NodeRev}
    (found : fs.node id = some node) : node.kind = kindOf kinds id := by
  obtain ⟨lists, sound⟩ := holds
  exact (sound.nodes id node found).2.2.1

theorem SoundFor.shaped (holds : SoundFor kinds streams fs) {id : NodeId} {node : NodeRev}
    (found : fs.node id = some node) : Shaped id := by
  obtain ⟨lists, sound⟩ := holds
  exact (sound.nodes id node found).1

theorem keeps_deleteRepOf (key : Option Nat) : Keeps (SoundFor kinds streams) (deleteRepOf key) := by
  unfold deleteRepOf
  split
  · exact keeps_pure _
  · rintro fs ⟨lists, sound⟩ value next ran
    obtain ⟨store, deleted, rfl⟩ := changeStore_ok.mp ran
    exact ⟨lists, sound.deleteRepIfMutable deleted⟩

theorem keeps_undeltifyRepOf (depth : Nat) (key : Option Nat) :
    Keeps (SoundFor kinds streams) (undeltifyRepOf depth key) := by
  unfold undeltifyRepOf
  split
  · exact keeps_pure _
  · rintro fs ⟨lists, sound⟩ value next ran
    obtain ⟨store, undeltified, rfl⟩ := changeStore_ok.mp ran
    exact ⟨lists, sound.repUndeltify undeltified⟩

theorem keeps_immutableRepOf (key : Option Nat) :
    Keeps (SoundFor kinds streams) (immutableRepOf key) := by
  unfold immutableRepOf
  split
  · exact keeps_pure _
  · rintro fs ⟨lists, sound⟩ value next ran
    obtain ⟨store, made, rfl⟩ := changeStore_ok.mp ran
    exact ⟨lists, sound.makeRepImmutable made⟩

theorem keeps_deleteNodeRevision (id : NodeId) :
    Keeps (SoundFor kinds streams) (deleteNodeRevision id) := by
  rintro fs ⟨lists, sound⟩ value next ran
  obtain ⟨-, rfl⟩ := deleteNodeRevision_ok.mp ran
  exact ⟨lists, sound.eraseNode id⟩

/-- A program that changes neither nodes nor reps. -/
theorem keeps_of_same {A : Type} {program : Trail A}
    (same : ∀ fs value next, program fs = .ok (value, next) →
      next.nodes = fs.nodes ∧ next.store = fs.store) : Keeps (SoundFor kinds streams) program := by
  rintro fs ⟨lists, sound⟩ value next ran
  obtain ⟨nodes, store⟩ := same fs value next ran
  exact ⟨lists, sound.congr nodes store⟩

theorem keeps_putTxn (txn : Nat) (record : Txn) : Keeps (SoundFor kinds streams) (putTxn txn record) :=
  keeps_of_same fun _ _ _ ran => by
    cases ran
    exact ⟨rfl, rfl⟩

theorem keeps_setTxnRoot (txn : Nat) (root : NodeId) :
    Keeps (SoundFor kinds streams) (setTxnRoot txn root) := by
  apply (reads_getTxn txn).keeps.bind
  intro record
  split
  · exact keeps_pure _
  · exact keeps_putTxn _ _

theorem keeps_setTxnBase (txn : Nat) (base : NodeId) :
    Keeps (SoundFor kinds streams) (setTxnBase txn base) := by
  apply (reads_getTxn txn).keeps.bind
  intro record
  split
  · exact keeps_pure _
  · exact keeps_putTxn _ _

theorem keeps_createTxn (root : NodeId) : Keeps (SoundFor kinds streams) (createTxn root) :=
  keeps_of_same fun fs _ _ ran => by
    unfold createTxn at ran
    split at ran
    · cases ran
    · cases ran
      exact ⟨rfl, rfl⟩

theorem keeps_deleteTxn (txn : Nat) : Keeps (SoundFor kinds streams) (deleteTxn txn) :=
  keeps_of_same fun fs _ _ ran => by
    unfold deleteTxn at ran
    split at ran
    · cases ran
      exact ⟨rfl, rfl⟩
    · cases ran

theorem keeps_putRev (root : NodeId) : Keeps (SoundFor kinds streams) (putRev root) :=
  keeps_of_same fun _ _ _ ran => by
    cases ran
    exact ⟨rfl, rfl⟩

theorem keeps_deleteIfMutable (depth fuel : Nat) :
    ∀ id : NodeId, Keeps (SoundFor kinds streams) (deleteIfMutable depth fuel id) := by
  induction fuel with
  | zero => exact fun _ => (reads_fail _).keeps
  | succ fuel ih =>
      intro id
      apply (reads_getNodeRevision id).keeps.bind
      intro node
      have clean : Keeps (SoundFor kinds streams) (do
          deleteRepOf node.propKey
          deleteRepOf node.dataKey
          deleteRepOf node.editKey
          deleteNodeRevision id : Trail Unit) :=
        (keeps_deleteRepOf _).bind fun _ => (keeps_deleteRepOf _).bind fun _ =>
          (keeps_deleteRepOf _).bind fun _ => keeps_deleteNodeRevision id
      split
      · exact keeps_pure _
      · split
        · apply (reads_dirEntriesSkel depth id).keeps.bind
          intro entries
          refine Keeps.bind (keeps_forM fun entry _ => ?_) fun _ => clean
          exact (reads_readStore _).keeps.bind ih
        · exact clean

theorem keeps_setEntryUnchecked {parent : NodeId} (isDir : kindOf kinds parent = .dir) (depth : Nat)
    (name : Bytes) (id : NodeId) :
    Keeps (SoundFor kinds streams) (setEntryUnchecked depth parent name id) := by
  rintro fs ⟨lists, sound⟩ value next ran
  obtain ⟨node, _, got, -⟩ := bind_ok.mp ran
  obtain ⟨found, -⟩ := getNodeRevision_ok.mp got
  obtain ⟨lists', -, -, -, after, -⟩ := sound.setEntryUnchecked found
    ((sound.nodes parent node found).2.2.1.trans isDir) ran
  exact ⟨lists', after⟩

theorem keeps_setEntry (depth : Nat) (parent : NodeId) (name : Bytes) (id : NodeId) :
    Keeps (SoundFor kinds streams) (setEntry depth parent name id) := by
  intro fs holds value next ran
  simp only [setEntry, bind_ok, getNodeRevision_ok, ensure_ok] at ran
  obtain ⟨node, _, ⟨found, rfl⟩, -, _, ⟨isDir, rfl⟩, -, _, ⟨-, rfl⟩, ran⟩ := ran
  exact keeps_setEntryUnchecked ((SoundFor.kind holds found).symm.trans isDir) depth name id _ holds
    value next ran

/-- A new node has its kind from then on. -/
theorem createNode_sound (holds : SoundFor kinds streams fs) {node : NodeRev} {id : NodeId}
    (fits : ∀ lists, Sound lists kinds streams fs → Fits lists fs.store.nextRep node)
    (ran : createNode node fs = .ok (id, next)) :
    ∃ kinds', SoundFor kinds' streams next ∧
      ∀ other found, fs.node other = some found → kindOf kinds' other = kindOf kinds other := by
  obtain ⟨lists, sound⟩ := holds
  obtain ⟨chosen, within, -, rfl⟩ := createNode_ok.mp ran
  refine ⟨_, ⟨lists, sound.createNode chosen within (fits lists sound)⟩, ?_⟩
  intro other found stored
  obtain ⟨-, others⟩ := newNodeId_family sound.shaped sound.withinLimit chosen
  rw [kindOf, Function.update_of_ne (others other ((fs.mem_entries other).mpr ⟨found, stored⟩)).ne]
  rfl

theorem makeEntry_sound (depth : Nat) (parent : NodeId) (name : Bytes) (kind : NodeKind) :
    Ensures (SoundFor kinds streams) (makeEntry depth parent name kind)
      fun _ fs => ∃ kinds', SoundFor kinds' streams fs := by
  intro fs holds value next ran
  simp only [makeEntry, bind_ok, getNodeRevision_ok, ensure_ok, pure_ok] at ran
  obtain ⟨-, _, ⟨-, rfl⟩, node, _, ⟨found, rfl⟩, -, _, ⟨isDir, rfl⟩, -, _, ⟨-, rfl⟩, entries, middle, read,
    -, _, ⟨-, rfl⟩, id, between, created, _, last, ranSet, rfl, rfl⟩ := ran
  obtain rfl := reads_dirEntriesSkel depth parent _ _ _ read
  obtain ⟨kinds', after, same⟩ := createNode_sound holds
    (fun lists _ => ⟨by simp, by simp, by simp⟩) created
  refine ⟨kinds', keeps_setEntryUnchecked ?_ depth name _ _ after _ _ ranSet⟩
  rw [same parent node found, ← SoundFor.kind holds found]
  exact isDir

theorem openChild_dir {depth : Nat} {parent child : NodeId} {name : Bytes}
    (ran : openChild depth parent name fs = .ok (child, next)) :
    ∃ node, fs.node parent = some node ∧ node.kind = .dir := by
  simp only [openChild, dirEntriesSkel, bind_ok, getNodeRevision_ok, ensure_ok] at ran
  obtain ⟨-, -, ⟨node, _, ⟨found, rfl⟩, -, _, ⟨isDir, -⟩, -⟩, -⟩ := ran
  exact ⟨node, found, isDir⟩

/-- A successor with the keys of a node of its kind. -/
theorem putSuccessor_sound (holds : SoundFor kinds streams fs) {oldId id other : NodeId}
    (node : NodeRev) {copied : NodeRev} (shaped : Shaped oldId)
    (chosen : Fs.newSuccessorId fs.nodes oldId = .ok id)
    (within : WithinLimit id) (found : fs.node other = some copied)
    (kind : kindOf kinds oldId = copied.kind)
    (same : node.kind = copied.kind ∧ node.propKey = copied.propKey ∧ node.dataKey = copied.dataKey ∧
      node.editKey = copied.editKey) : SoundFor kinds streams (fs.putNode id node) := by
  obtain ⟨lists, sound⟩ := holds
  obtain ⟨sameKind, prop, data, edit⟩ := same
  refine ⟨lists, sound.putSuccessor shaped chosen within (sameKind.trans kind.symm) ?_⟩
  obtain ⟨propFits, editFits, dataFits⟩ := sound.fits found
  refine ⟨?_, ?_, ?_⟩
  · rw [prop]
    exact propFits
  · rw [edit, sameKind]
    exact editFits
  · rw [data, sameKind]
    exact dataFits

theorem keeps_cloneChild (depth : Nat) (parent : NodeId) (name : Bytes) :
    Keeps (SoundFor kinds streams) (cloneChild depth parent name) := by
  intro fs holds value next ran
  simp only [cloneChild, bind_ok, getNodeRevision_ok, ensure_ok] at ran
  obtain ⟨-, _, ⟨-, rfl⟩, -, _, ⟨-, rfl⟩, -, _, ⟨-, rfl⟩, current, middle, opened, child, _, ⟨found, rfl⟩,
    ran⟩ := ran
  obtain ⟨node, isParent, isDir⟩ := openChild_dir opened
  obtain rfl := reads_openChild depth parent name _ _ _ opened
  split at ran
  · obtain ⟨-, rfl⟩ := pure_ok.mp ran
    exact holds
  · simp only [bind_ok, createSuccessor_ok, pure_ok] at ran
    obtain ⟨id, _, ⟨chosen, within, -, rfl⟩, _, last, entered, -, rfl⟩ := ran
    have cloned := putSuccessor_sound holds (makeMutable child) (SoundFor.shaped holds found)
      chosen within found (SoundFor.kind holds found).symm ⟨rfl, rfl, rfl, rfl⟩
    exact keeps_setEntryUnchecked ((SoundFor.kind holds isParent).symm.trans isDir) depth name id _
      cloned _ _ entered

theorem keeps_cloneRoot (txn : Nat) : Keeps (SoundFor kinds streams) (cloneRoot txn) := by
  apply (reads_getTxn txn).keeps.bind
  intro record
  split
  · intro fs holds value next ran
    simp only [bind_ok, getNodeRevision_ok, createSuccessor_ok, pure_ok] at ran
    obtain ⟨node, _, ⟨found, rfl⟩, id, _, ⟨chosen, within, -, rfl⟩, _, last, rooted, -, rfl⟩ := ran
    have cloned := putSuccessor_sound holds (makeMutable node) (SoundFor.shaped holds found)
      chosen within found (SoundFor.kind holds found).symm ⟨rfl, rfl, rfl, rfl⟩
    exact keeps_setTxnRoot txn id _ cloned _ _ rooted
  · exact (reads_getNodeRevision _).keeps.bind fun _ => keeps_pure _

theorem keeps_setProplist (depth : Nat) (id : NodeId) (proplist : Skel) :
    Keeps (SoundFor kinds streams) (setProplist depth id proplist) := by
  rintro fs ⟨lists, sound⟩ value next ran
  simp only [setProplist, bind_ok, getNodeRevision_ok, ensure_ok, withStore_ok] at ran
  obtain ⟨node, _, ⟨found, rfl⟩, -, _, ⟨-, rfl⟩, -, _, ⟨-, rfl⟩, key, _, ⟨store, got, rfl⟩, ran⟩ := ran
  have fits := sound.fits found
  obtain ⟨middle, plain⟩ := sound.getMutableRep fits.prop got
  have written {fs : Filesystem} (sound : Sound lists kinds streams fs)
      (ran : (do
        changeStore fun store => repContentsClear store key
        changeStore fun store => repWrite store key (unparseSkel proplist) : Trail Unit) fs =
          .ok (value, next)) : SoundFor kinds streams next := by
    simp only [bind_ok, changeStore_ok] at ran
    obtain ⟨-, _, ⟨first, cleared, rfl⟩, second, wrote, rfl⟩ := ran
    exact ⟨lists, (sound.repContentsClear plain.2 cleared).repWrite plain.2 wrote⟩
  split at ran
  · exact written middle ran
  · rw [bind_ok] at ran
    obtain ⟨_, _, changed, ran⟩ := ran
    obtain ⟨-, rfl⟩ := putNodeRevision_ok.mp changed
    have fits' := middle.fits found
    refine written (middle.changeNode { node with propKey := some key } found rfl
      ⟨?_, fits'.edit, fits'.data⟩) ran
    rintro _ ⟨⟩
    exact plain

/-- The new stream is opened on a rep that is no list. -/
theorem getEditStream_sound (depth : Nat) (id : NodeId) :
    Ensures (SoundFor kinds streams) (getEditStream depth id)
      fun key fs => SoundFor kinds (⟨id, key⟩ :: streams) fs := by
  rintro fs holds key next ran
  simp only [getEditStream, bind_ok, getNodeRevision_ok, ensure_ok, withStore_ok, get_ok, pure_ok,
    putNodeRevision_ok] at ran
  obtain ⟨node, _, ⟨found, rfl⟩, -, _, ⟨isFile, rfl⟩, -, _, ⟨-, rfl⟩, _, middle, deleted, other, _,
    ⟨store, got, rfl⟩, _, _, ⟨rfl, rfl⟩, -, _, ⟨unedited, rfl⟩, -, _, ⟨-, rfl⟩, rfl, rfl⟩ := ran
  rw [unedited] at deleted
  obtain ⟨-, rfl⟩ := pure_ok.mp deleted
  obtain ⟨lists, sound⟩ := holds
  obtain ⟨after, plain⟩ := sound.getMutableRep (by simp) got
  have fits := after.fits found
  have changed := after.changeNode { node with editKey := some key } found rfl
    ⟨fits.prop, by rintro _ ⟨⟩; exact ⟨isFile, plain⟩, fits.data⟩
  refine ⟨lists, changed.reps, changed.maps, changed.nodes, ?_⟩
  intro stream member
  rcases List.mem_cons.mp member with rfl | earlier
  · exact plain
  · exact changed.opened stream earlier

theorem keeps_finalizeEdits (id : NodeId) : Keeps (SoundFor kinds streams) (finalizeEdits id) := by
  rintro fs ⟨lists, sound⟩ value next ran
  simp only [finalizeEdits, bind_ok, getNodeRevision_ok, ensure_ok] at ran
  obtain ⟨node, _, ⟨found, rfl⟩, -, _, ⟨-, rfl⟩, ran⟩ := ran
  cases edited : node.editKey with
  | none =>
      rw [edited] at ran
      obtain ⟨-, rfl⟩ := pure_ok.mp ran
      exact ⟨lists, sound⟩
  | some key =>
      rw [edited] at ran
      simp only [bind_ok, putNodeRevision_ok] at ran
      obtain ⟨-, _, ⟨-, rfl⟩, ran⟩ := ran
      have fits := sound.fits found
      obtain ⟨isFile, plain⟩ := fits.edit key edited
      have changed := sound.changeNode { node with dataKey := some key, editKey := none } found
        rfl ⟨fits.prop, by simp, by
          rintro _ ⟨⟩
          exact ⟨plain.1, iff_of_false plain.2 (by simp [isFile])⟩⟩
      exact keeps_deleteRepOf node.dataKey _ ⟨lists, changed⟩ _ _ ran

theorem changeStore_deltify (holds : SoundFor kinds streams fs) {depth target source : Nat}
    (unlisted : ∀ lists, Sound lists kinds streams fs → target ∉ lists) {value : Unit}
    (ran : changeStore (fun store => repDeltify store depth target source) fs = .ok (value, next)) :
    SoundFor kinds streams next ∧ ∀ id, next.node id = fs.node id := by
  obtain ⟨lists, sound⟩ := holds
  obtain ⟨store, deltified, rfl⟩ := changeStore_ok.mp ran
  exact ⟨⟨lists, sound.repDeltify (unlisted lists sound) deltified⟩, fun _ => rfl⟩

/-- The data of a directory are never deltified. -/
theorem deltifyData_sound {target : NodeId} {propsOnly : Bool} {node other : NodeRev} {depth : Nat}
    {value : Unit} (isFile : propsOnly = false → kindOf kinds target = .file)
    (holds : SoundFor kinds streams fs) (found : fs.node target = some node)
    (ran : (match node.dataKey, other.dataKey with
      | some targetKey, some sourceKey =>
          if propsOnly = true ∨ targetKey = sourceKey then pure ()
          else changeStore fun store => repDeltify store depth targetKey sourceKey
      | _, _ => pure () : Trail Unit) fs = .ok (value, next)) : SoundFor kinds streams next := by
  cases isData : node.dataKey with
  | none =>
      rw [isData] at ran
      obtain ⟨-, rfl⟩ := pure_ok.mp ran
      exact holds
  | some targetKey =>
      rw [isData] at ran
      cases isSource : other.dataKey with
      | none =>
          rw [isSource] at ran
          obtain ⟨-, rfl⟩ := pure_ok.mp ran
          exact holds
      | some sourceKey =>
          rw [isSource] at ran
          dsimp only at ran
          split at ran
          · obtain ⟨-, rfl⟩ := pure_ok.mp ran
            exact holds
          · next whole =>
              have notProps : propsOnly = false := by simpa using fun only => whole (Or.inl only)
              refine (changeStore_deltify holds (fun lists sound listed => ?_) ran).1
              obtain ⟨-, isList⟩ := (sound.fits found).data targetKey isData
              have kind := SoundFor.kind holds found
              rw [isList.mp listed, isFile notProps] at kind
              cases kind

theorem keeps_deltify {target : NodeId} {propsOnly : Bool}
    (isFile : propsOnly = false → kindOf kinds target = .file) (depth : Nat) (source : NodeId) :
    Keeps (SoundFor kinds streams) (deltify depth target source propsOnly) := by
  intro fs holds value next ran
  simp only [deltify, bind_ok, getNodeRevision_ok] at ran
  obtain ⟨node, _, ⟨found, rfl⟩, other, _, ⟨-, rfl⟩, ran⟩ := ran
  cases isProp : node.propKey with
  | none =>
      rw [isProp] at ran
      exact deltifyData_sound isFile holds found ran
  | some targetKey =>
      rw [isProp] at ran
      cases isSource : other.propKey with
      | none =>
          rw [isSource] at ran
          exact deltifyData_sound isFile holds found ran
      | some sourceKey =>
          rw [isSource] at ran
          dsimp only at ran
          split at ran
          · exact deltifyData_sound isFile holds found ran
          · rw [bind_ok] at ran
            obtain ⟨_, middle, deltified, ran⟩ := ran
            obtain ⟨after, same⟩ := changeStore_deltify holds
              (fun lists sound => ((sound.fits found).prop targetKey isProp).2) deltified
            exact deltifyData_sound isFile after ((same target).trans found) ran

theorem keeps_undeltify (depth : Nat) (id : NodeId) :
    Keeps (SoundFor kinds streams) (undeltify depth id) :=
  (reads_getNodeRevision id).keeps.bind fun _ =>
    (keeps_undeltifyRepOf depth _).bind fun _ => keeps_undeltifyRepOf depth _

theorem keeps_deltifyById {target : NodeId} {isDir : Bool}
    (isFile : isDir = false → kindOf kinds target = .file) (depth : Nat) :
    Keeps (SoundFor kinds streams) (deltifyById depth target isDir) := by
  apply reads_get.keeps.bind
  intro fs
  split
  · exact keeps_deltify isFile depth _
  · exact keeps_deltify isFile depth _
  · exact keeps_pure _

theorem kind_file {kind : NodeKind} (notDir : decide (kind = .dir) = false) : kind = .file := by
  cases kind with
  | file => rfl
  | dir => cases notDir

theorem keeps_deltifyUndeltify (order : HashOrder) (depth : Nat) (doDeltify recurse : Bool)
    (fuel : Nat) :
    ∀ id : NodeId,
      Keeps (SoundFor kinds streams) (deltifyUndeltify order depth doDeltify recurse fuel id) := by
  induction fuel with
  | zero => exact fun _ => (reads_fail _).keeps
  | succ fuel ih =>
      intro id fs holds value next ran
      obtain ⟨node, _, got, rest⟩ := bind_ok.mp ran
      obtain ⟨found, rfl⟩ := getNodeRevision_ok.mp got
      have isKind := SoundFor.kind holds found
      have last : Keeps (SoundFor kinds streams) (if doDeltify then
          deltifyById depth id (node.kind = .dir) else undeltify depth id) := by
        split
        · exact keeps_deltifyById (fun notDir => isKind ▸ kind_file notDir) depth
        · exact keeps_undeltify depth id
      split at rest
      · refine Keeps.bind (reads_dirEntriesHash depth id).keeps (fun entries => ?_) _ holds value next rest
        refine Keeps.bind (keeps_forM fun entry _ => ?_) fun _ => last
        exact (reads_readStore _).keeps.bind ih
      · exact last _ holds value next rest

theorem idPredecessor_family {id predecessor : NodeId} (shaped : Shaped id)
    (isPredecessor : idPredecessor id = some predecessor) : predecessor.headD 0 = id.headD 0 := by
  obtain ⟨front, number, revision, -, rfl⟩ := shaped.exists_last
  rw [idPredecessor_append] at isPredecessor
  split at isPredecessor
  · cases isPredecessor
    cases front <;> rfl
  · split at isPredecessor
    · cases isPredecessor
    · next nonempty =>
        obtain rfl := Option.some.inj isPredecessor
        cases front with
        | nil => exact absurd rfl nonempty
        | cons first rest => rfl

theorem keeps_stableNode (depth : Nat) (id : NodeId) :
    Keeps (SoundFor kinds streams) (stableNode depth id) := by
  intro fs holds value next ran
  obtain ⟨node, _, got, rest⟩ := bind_ok.mp ran
  obtain ⟨found, rfl⟩ := getNodeRevision_ok.mp got
  cases isPredecessor : idPredecessor id with
  | none =>
      rw [isPredecessor] at rest
      obtain ⟨-, rfl⟩ := pure_ok.mp rest
      exact holds
  | some predecessor =>
      rw [isPredecessor] at rest
      have same := idPredecessor_family (SoundFor.shaped holds found) isPredecessor
      refine keeps_deltify (fun notDir => ?_) depth id _ holds value next rest
      rw [kindOf, same]
      exact (SoundFor.kind holds found).symm.trans (kind_file notDir)

theorem keeps_makeNodeImmutable (id : NodeId) (rev : Nat) :
    Keeps (SoundFor kinds streams) (makeNodeImmutable id rev) := by
  intro fs holds value next ran
  obtain ⟨node, _, got, rest⟩ := bind_ok.mp ran
  obtain ⟨found, rfl⟩ := getNodeRevision_ok.mp got
  split at rest
  · obtain ⟨-, rfl⟩ := pure_ok.mp rest
    exact holds
  · simp only [bind_ok, ensure_ok, putNodeRevision_ok] at rest
    obtain ⟨-, _, ⟨-, rfl⟩, _, first, ranProp, _, second, ranData, -, rfl⟩ := rest
    have same {key : Option Nat} {fs next : Filesystem} {value : Unit}
        (ran : immutableRepOf key fs = .ok (value, next)) : next.node id = fs.node id := by
      cases key with
      | none =>
          obtain ⟨-, rfl⟩ := pure_ok.mp ran
          rfl
      | some key =>
          obtain ⟨store, -, rfl⟩ := changeStore_ok.mp ran
          rfl
    obtain ⟨lists, sound⟩ := keeps_immutableRepOf _ _ (keeps_immutableRepOf _ _ holds _ _ ranProp) _ _
      ranData
    have still : second.node id = some node := (same ranData).trans ((same ranProp).trans found)
    obtain ⟨prop, edit, data⟩ := sound.fits still
    exact ⟨lists, sound.changeNode _ still rfl ⟨prop, edit, data⟩⟩

theorem keeps_stabilizeNode (depth rev fuel : Nat) :
    ∀ id : NodeId, Keeps (SoundFor kinds streams) (stabilizeNode depth rev fuel id) := by
  induction fuel with
  | zero => exact fun _ => (reads_fail _).keeps
  | succ fuel ih =>
      intro id
      apply (reads_getNodeRevision id).keeps.bind
      intro node
      have last : Keeps (SoundFor kinds streams) (do
          makeNodeImmutable id rev
          stableNode depth id : Trail Unit) :=
        (keeps_makeNodeImmutable id rev).bind fun _ => keeps_stableNode depth id
      split
      · exact keeps_pure _
      · split
        · apply (reads_dirEntriesSkel depth id).keeps.bind
          intro entries
          refine Keeps.bind (keeps_forM fun entry _ => ?_) fun _ => last
          exact (reads_readStore _).keeps.bind ih
        · exact last

theorem keeps_commitTxn (depth txn : Nat) : Keeps (SoundFor kinds streams) (commitTxn depth txn) := by
  apply (reads_getTxn txn).keeps.bind
  intro record
  apply (reads_getNodeRevision _).keeps.bind
  intro _
  apply (keeps_putRev _).bind
  intro rev
  apply (keeps_stabilizeNode depth rev depth _).bind
  intro _
  exact (keeps_deleteTxn txn).bind fun _ => keeps_pure _

/-- What is written is a map, so it does not matter whose rep it is. -/
theorem rewrite_sound (holds : SoundFor kinds streams fs) {key : Nat} {entries : List Entry}
    (distinct : DistinctNames entries) {value : Unit}
    (ran : (do
      changeStore fun store => repContentsClear store key
      changeStore fun store => repWrite store key (unparseEntries entries) : Trail Unit) fs =
        .ok (value, next)) : SoundFor kinds streams next := by
  obtain ⟨lists, sound⟩ := holds
  simp only [bind_ok, changeStore_ok] at ran
  obtain ⟨-, _, ⟨middle, cleared, rfl⟩, last, wrote, rfl⟩ := ran
  obtain ⟨other, rep, again, rewritten⟩ := sound.reps.clear_write cleared (unparseEntries entries)
  cases again.symm.trans wrote
  exact ⟨lists, sound.rewriteList rewritten distinct⟩

/-- What is below the entry is deleted before the list is written anew. -/
theorem deleteEntry_finds {depth : Nat} {parent : NodeId} {name : Bytes} {requireEmpty : Bool} {value : Unit}
    (ran : deleteEntry depth parent name requireEmpty fs = .ok (value, next)) :
    ∃ node key middle raw entries text child deleted, fs.node parent = some node ∧ node.kind = .dir ∧
      node.rev = none ∧ node.dataKey ≠ none ∧ mutableDataKey depth parent node fs = .ok (key, middle) ∧
      repContents middle.store depth key = .ok raw ∧ parseEntries raw = .ok entries ∧
      findDirEntry entries name = some text ∧ entryId text = .ok child ∧
      (∃ there, middle.node child = some there ∧ (there.kind = .dir → requireEmpty = true →
        dirEntriesSkel depth child middle = .ok ([], middle))) ∧
      deleteIfMutable depth depth child middle = .ok ((), deleted) ∧
      (do
        changeStore fun store => repContentsClear store key
        changeStore fun store => repWrite store key (unparseEntries (loseEntry entries name)) :
          Trail Unit) deleted = .ok (value, next) := by
  simp only [deleteEntry, bind_ok, getNodeRevision_ok, ensure_ok, readStore_ok] at ran
  obtain ⟨node, _, ⟨found, rfl⟩, -, _, ⟨isDir, rfl⟩, -, _, ⟨mutable, rfl⟩, -, _, ⟨-, rfl⟩, -, _,
    ⟨named, rfl⟩, key, middle, keyed, entries, _, ⟨read, rfl⟩, ran⟩ := ran
  split at read
  · cases read
  next raw contents =>
    cases listed : findDirEntry entries name with
    | none =>
        rw [listed] at ran
        cases ran
    | some text =>
        rw [listed] at ran
        simp only [bind_ok, readStore_ok, getNodeRevision_ok] at ran
        obtain ⟨id, _, ⟨isId, rfl⟩, child, _, ⟨there, rfl⟩, ran⟩ := ran
        split at ran
        · obtain ⟨inside, _, listing, rest⟩ := bind_ok.mp ran
          obtain rfl := reads_dirEntriesSkel depth id _ _ _ listing
          obtain ⟨_, _, ensured, deletes⟩ := bind_ok.mp rest
          obtain ⟨empty, rfl⟩ := ensure_ok.mp ensured
          obtain ⟨_, deleted, ranDelete, last⟩ := bind_ok.mp deletes
          refine ⟨node, key, _, raw, entries, text, id, deleted, found, isDir, mutable, named, keyed, contents,
            read, listed, isId, ⟨child, there, fun _ required => ?_⟩, ranDelete, last⟩
          rcases empty with optional | nothing
          · rw [required] at optional
            cases optional
          · rw [listing, nothing]
        · next isFile =>
            obtain ⟨_, deleted, ranDelete, last⟩ := bind_ok.mp ran
            exact ⟨node, key, _, raw, entries, text, id, deleted, found, isDir, mutable, named, keyed, contents,
              read, listed, isId, ⟨child, there, fun isDir => absurd isDir isFile⟩, ranDelete, last⟩

theorem deleteEntry_ok {depth : Nat} {parent : NodeId} {name : Bytes} {requireEmpty : Bool} {value : Unit}
    (ran : deleteEntry depth parent name requireEmpty fs = .ok (value, next)) :
    ∃ node key middle raw entries child deleted, fs.node parent = some node ∧ node.kind = .dir ∧
      node.rev = none ∧ node.dataKey ≠ none ∧ mutableDataKey depth parent node fs = .ok (key, middle) ∧
      repContents middle.store depth key = .ok raw ∧ parseEntries raw = .ok entries ∧
      deleteIfMutable depth depth child middle = .ok ((), deleted) ∧
      (do
        changeStore fun store => repContentsClear store key
        changeStore fun store => repWrite store key (unparseEntries (loseEntry entries name)) :
          Trail Unit) deleted = .ok (value, next) := by
  obtain ⟨node, key, middle, raw, entries, text, child, deleted, found, isDir, mutable, named, keyed, contents,
    read, -, -, -, ranDelete, last⟩ := deleteEntry_finds ran
  exact ⟨node, key, middle, raw, entries, child, deleted, found, isDir, mutable, named, keyed, contents, read,
    ranDelete, last⟩

theorem keeps_deleteEntry (depth : Nat) (parent : NodeId) (name : Bytes) (requireEmpty : Bool) :
    Keeps (SoundFor kinds streams) (deleteEntry depth parent name requireEmpty) := by
  rintro fs ⟨lists, sound⟩ value next ran
  obtain ⟨node, key, middle, raw, entries, child, deleted, found, isDir, -, named, keyed, contents, read,
    ranDelete, last⟩ := deleteEntry_ok ran
  obtain ⟨lists', rep, held, between, owns, -⟩ :=
    sound.mutableList found isDir named (repContents_positive contents) keyed
  have same := owns.holds.parse owns.stored contents
  rw [read] at same
  cases same
  have after := keeps_deleteIfMutable depth depth child middle ⟨lists', between⟩ _ _ ranDelete
  exact rewrite_sound after (owns.holds.1.loseEntry name) last

theorem copy_sound (depth : Nat) (toNode : NodeId) (name : Bytes) (fromNode : NodeId)
    (preserveHistory : Bool) (fromRev : Nat) (fromPath : Bytes) :
    Ensures (SoundFor kinds streams)
      (copy depth toNode name fromNode preserveHistory fromRev fromPath)
      fun _ fs => ∃ kinds', SoundFor kinds' streams fs := by
  intro fs holds value next ran
  unfold copy at ran
  split at ran
  · simp only [bind_ok, getNodeRevision_ok] at ran
    obtain ⟨node, _, ⟨found, rfl⟩, id, middle, created, ran⟩ := ran
    obtain ⟨kinds', after, -⟩ := createNode_sound holds (fun lists sound => by
      obtain ⟨prop, edit, data⟩ := sound.fits found
      exact ⟨prop, edit, data⟩) created
    exact ⟨kinds', keeps_setEntry depth toNode name id _ after _ _ ran⟩
  · exact ⟨kinds, keeps_setEntry depth toNode name fromNode _ holds _ _ ran⟩

theorem keeps_mutableRootNode (root : Root) (errorPath : Bytes) :
    Keeps (SoundFor kinds streams) (mutableRootNode root errorPath) := by
  cases root with
  | txn txn => exact keeps_cloneRoot txn
  | revision rev => exact (reads_get.bind fun _ => reads_fail _).keeps
  | id => exact (reads_get.bind fun _ => reads_fail _).keeps

theorem keeps_makePathMutable (depth : Nat) (root : Root) (errorPath : Bytes)
    (parentPath : ParentPath) :
    Keeps (SoundFor kinds streams) (makePathMutable depth root errorPath parentPath) := by
  induction parentPath with
  | root id =>
      apply (reads_getNodeRevision id).keeps.bind
      intro node
      split
      · exact keeps_pure _
      · exact keeps_mutableRootNode root errorPath
  | child node entry parent ih =>
      cases node with
      | none => exact (reads_fail _).keeps
      | some id =>
          apply (reads_getNodeRevision id).keeps.bind
          intro node
          split
          · exact keeps_pure _
          · exact ih.bind fun parentId => keeps_cloneChild depth parentId entry

end Keeping

section Bodies

variable {kinds : Nat → NodeKind} {streams : List Stream} {fs next : Filesystem}

/-- The kinds of nodes may be others when the trail is done. -/
def SoundIn (streams : List Stream) (fs : Filesystem) : Prop := ∃ kinds, SoundFor kinds streams fs

theorem keeps_soundIn {A : Type} {program : Trail A}
    (keeps : ∀ kinds, Keeps (SoundFor kinds streams) program) : Keeps (SoundIn streams) program := by
  rintro fs ⟨kinds, holds⟩ value next ran
  exact ⟨kinds, keeps kinds fs holds value next ran⟩

theorem ensures_soundIn {A : Type} {program : Trail A}
    (ensures : ∀ kinds, Ensures (SoundFor kinds streams) program
      fun _ fs => ∃ kinds', SoundFor kinds' streams fs) : Keeps (SoundIn streams) program := by
  rintro fs ⟨kinds, holds⟩ value next ran
  exact ensures kinds fs holds value next ran

theorem keeps_txnBodyChangeNodeProp (depth : Nat) (root : Root) (path name : Bytes)
    (value : Option Bytes) :
    Keeps (SoundIn streams) (txnBodyChangeNodeProp depth root path name value) := by
  apply (reads_ensureTxnRoot root).keeps.bind
  intro _
  apply (reads_openPath depth root path false).keeps.bind
  intro parentPath
  apply (keeps_soundIn fun kinds => keeps_makePathMutable depth root path parentPath).bind
  intro id
  apply (reads_getProplist depth id).keeps.bind
  intro proplist
  apply (reads_readStore _).keeps.bind
  intro changed
  exact keeps_soundIn fun kinds => keeps_setProplist depth id changed

theorem keeps_txnBodyMake (depth : Nat) (root : Root) (path : Bytes) (kind : NodeKind) :
    Keeps (SoundIn streams) (txnBodyMake depth root path kind) := by
  have made : Keeps (SoundIn streams) (do
      let parentPath ← openPath depth root path true
      let fs ← get
      ensure (parentPath.node = none) (alreadyExists fs.nodes.path root path)
      let found ← parentOf parentPath
      let parentId ← makePathMutable depth root path found.1
      let _ ← makeEntry depth parentId found.2 kind : Trail Unit) := by
    apply (reads_openPath depth root path true).keeps.bind
    intro parentPath
    apply reads_get.keeps.bind
    intro fs
    apply (reads_ensure _ _).keeps.bind
    intro _
    apply (reads_parentOf parentPath).keeps.bind
    intro found
    apply (keeps_soundIn fun kinds => keeps_makePathMutable depth root path found.1).bind
    intro parentId
    exact (ensures_soundIn fun kinds => makeEntry_sound depth parentId found.2 kind).bind
      fun _ => keeps_pure _
  unfold txnBodyMake
  split
  · exact (reads_ensureTxnRoot root).keeps.bind fun _ => made
  · exact made

theorem keeps_txnBodyDelete (depth : Nat) (root : Root) (path : Bytes) (deleteTree : Bool) :
    Keeps (SoundIn streams) (txnBodyDelete depth root path deleteTree) := by
  apply (reads_openPath depth root path false).keeps.bind
  intro parentPath
  apply (reads_ensureTxnRoot root).keeps.bind
  intro _
  split
  · exact (reads_fail _).keeps
  · next entry parent =>
      apply (keeps_soundIn fun kinds => keeps_makePathMutable depth root path parent).bind
      intro parentId
      exact keeps_soundIn fun kinds => keeps_deleteEntry depth parentId entry _

theorem keeps_txnBodyCopy (depth : Nat) (fromRoot : Root) (fromPath : Bytes) (toRoot : Root)
    (toPath : Bytes) (preserveHistory : Bool) :
    Keeps (SoundIn streams) (txnBodyCopy depth fromRoot fromPath toRoot toPath preserveHistory) := by
  apply (reads_ensureTxnRoot toRoot).keeps.bind
  intro _
  split
  · next rev =>
      apply (reads_getDag depth _ fromPath).keeps.bind
      intro fromId
      apply (reads_openPath depth toRoot toPath true).keeps.bind
      intro parentPath
      apply (reads_parentOf parentPath).keeps.bind
      intro found
      apply (keeps_soundIn fun kinds => keeps_makePathMutable depth toRoot toPath found.1).bind
      intro parentId
      exact ensures_soundIn fun kinds =>
        copy_sound depth parentId found.2 fromId preserveHistory rev fromPath
  · exact (reads_fail _).keeps

theorem keeps_moveToSuccessor {source target : NodeId} (shaped : Shaped source)
    (same : kindOf kinds source = kindOf kinds target) :
    Keeps (SoundFor kinds streams) (moveToSuccessor source target) := by
  intro fs holds value next ran
  simp only [moveToSuccessor, newSuccessorId, bind_ok, chooseId_ok, getNodeRevision_ok,
    putNodeRevision_ok, pure_ok] at ran
  obtain ⟨id, _, ⟨chosen, within, rfl⟩, node, _, ⟨found, rfl⟩, -, _, ⟨-, rfl⟩, -, rfl⟩ := ran
  exact putSuccessor_sound holds _ shaped chosen within found
    (same.trans (SoundFor.kind holds found).symm) ⟨rfl, rfl, rfl, rfl⟩

theorem keeps_mergeEntry {recurse : Bytes → NodeId → NodeId → NodeId → Trail Unit}
    (keeps : ∀ path target source ancestor,
      Keeps (SoundFor kinds streams) (recurse path target source ancestor))
    (depth : Nat) (targetPath : Bytes) (target : NodeId) (name : Bytes) (ancestor : NodeId)
    (source current : Option NodeId) :
    Keeps (SoundFor kinds streams)
      (mergeEntry recurse depth targetPath target name ancestor source current) := by
  unfold mergeEntry
  split
  · next source current =>
      split
      · exact keeps_pure _
      · split
        · exact (reads_ensureMutable target targetPath).keeps.bind
            fun _ => keeps_setEntry depth target name source
        · split
          · exact keeps_pure _
          · intro fs holds value next ran
            simp only [bind_ok, getNodeRevision_ok, ensure_ok] at ran
            obtain ⟨sourceNode, _, ⟨isSource, rfl⟩, currentNode, _, ⟨isCurrent, rfl⟩, ancestorNode, _,
              ⟨-, rfl⟩, -, _, ⟨⟨sourceDir, currentDir, -⟩, rfl⟩, _, merged, recursed, ran⟩ := ran
            have after := keeps _ _ _ _ _ holds _ _ recursed
            have same : kindOf kinds source = kindOf kinds current := by
              rw [← SoundFor.kind holds isSource, ← SoundFor.kind holds isCurrent, sourceDir, currentDir]
            have moved : Keeps (SoundFor kinds streams) (do
                let successor ← moveToSuccessor source current
                setEntry depth target name successor
                deleteNodeRevision current : Trail Unit) :=
              (keeps_moveToSuccessor (SoundFor.shaped holds isSource) same).bind fun successor =>
                (keeps_setEntry depth target name successor).bind fun _ =>
                  keeps_deleteNodeRevision current
            split at ran
            · exact moved _ after _ _ ran
            · exact keeps_pure _ _ after _ _ ran
  · exact (reads_ensure _ _).keeps
  · split
    · exact (reads_ensureMutable target targetPath).keeps.bind
        fun _ => keeps_deleteEntry depth target name false
    · exact (reads_ensure _ _).keeps
  · exact keeps_pure _

theorem keeps_mergeAddition (depth : Nat) (targetPath : Bytes) (target : NodeId) (name : Bytes)
    (source : NodeId) (current : Option NodeId) :
    Keeps (SoundFor kinds streams) (mergeAddition depth targetPath target name source current) := by
  unfold mergeAddition
  split
  · exact (reads_ensureMutable target targetPath).keeps.bind
      fun _ => keeps_setEntry depth target name source
  · exact (reads_ensure _ _).keeps

theorem keeps_merge (order : HashOrder) (depth fuel : Nat) :
    ∀ (targetPath : Bytes) (target source ancestor : NodeId),
      Keeps (SoundFor kinds streams) (merge order depth fuel targetPath target source ancestor) := by
  induction fuel with
  | zero => exact fun _ _ _ _ => (reads_fail _).keeps
  | succ fuel ih =>
      intro targetPath target source ancestor
      apply (reads_ensure _ _).keeps.bind
      intro _
      split
      · exact keeps_pure _
      · apply (reads_getNodeRevision source).keeps.bind
        intro sourceNode
        apply (reads_getNodeRevision target).keeps.bind
        intro targetNode
        apply (reads_getNodeRevision ancestor).keeps.bind
        intro ancestorNode
        apply (reads_ensure _ _).keeps.bind
        intro _
        apply (reads_ensure _ _).keeps.bind
        intro _
        apply (reads_hashIds order depth source).keeps.bind
        intro sources
        apply (reads_hashIds order depth target).keeps.bind
        intro targets
        apply (reads_hashIds order depth ancestor).keeps.bind
        intro ancestors
        apply Keeps.bind
        · exact keeps_forM fun entry _ => keeps_mergeEntry ih depth targetPath target entry.1 entry.2 _ _
        · intro _
          exact keeps_forM fun entry _ =>
            keeps_mergeAddition depth targetPath target entry.1 entry.2 _

/-- A merge that is not trivial is one of directories. -/
theorem merge_directories {order : HashOrder} {depth fuel : Nat} {targetPath : Bytes}
    {target source ancestor : NodeId} {value : Unit}
    (ran : merge order depth fuel targetPath target source ancestor fs = .ok (value, next)) :
    ancestor = source ∨ source = target ∨ ∃ sourceNode targetNode, fs.node source = some sourceNode ∧
      fs.node target = some targetNode ∧ sourceNode.kind = .dir ∧ targetNode.kind = .dir := by
  cases fuel with
  | zero => cases ran
  | succ fuel =>
      simp only [merge, bind_ok, ensure_ok] at ran
      obtain ⟨-, _, ⟨-, rfl⟩, ran⟩ := ran
      split at ran
      · next trivial =>
          rcases trivial with same | same
          · exact Or.inl same
          · exact Or.inr (Or.inl same)
      · simp only [bind_ok, getNodeRevision_ok, ensure_ok] at ran
        obtain ⟨sourceNode, _, ⟨isSource, rfl⟩, targetNode, _, ⟨isTarget, rfl⟩, -, _, ⟨-, rfl⟩, -, _,
          ⟨⟨sourceDir, targetDir, -⟩, -⟩, -⟩ := ran
        exact Or.inr (Or.inr ⟨sourceNode, targetNode, isSource, isTarget, sourceDir, targetDir⟩)

theorem distanceBehindPrefix_self : ∀ id : NodeId, distanceBehindPrefix id id = 0
  | [] => rfl
  | [_] => rfl
  | number :: revision :: rest => by
      rw [distanceBehindPrefix, if_pos ⟨rfl, rfl⟩]
      exact distanceBehindPrefix_self rest

theorem not_rebases_self (ancestor target : NodeId) : rebases ancestor target ancestor = false := by
  simp [rebases, idDistance, distanceBehindPrefix_self]

theorem keeps_txnBodyMerge (order : HashOrder) (depth txn : Nat) (source : NodeId)
    (ancestor : Option NodeId) :
    Keeps (SoundFor kinds streams) (txnBodyMerge order depth txn source ancestor) := by
  have merged (record : Txn) (ancestor : NodeId) : ∀ fs, SoundFor kinds streams fs →
      (∃ node, fs.node record.root = some node) → ∀ value next, (do
        if ancestor = record.root then
          setTxnBase txn source
          setTxnRoot txn source
        else
          merge order depth depth [] record.root source ancestor
          if rebases ancestor record.root source then
            let successor ← moveToSuccessor source record.root
            setTxnRoot txn successor
            deleteNodeRevision record.root
          else pure ()
          setTxnBase txn source : Trail Unit) fs = .ok (value, next) → SoundFor kinds streams next := by
    rintro fs holds ⟨root, found⟩ value next ran
    split at ran
    · exact Keeps.bind (keeps_setTxnBase txn source) (fun _ => keeps_setTxnRoot txn source) _ holds _ _ ran
    · obtain ⟨_, middle, ranMerge, ran⟩ := bind_ok.mp ran
      have after := keeps_merge order depth depth [] _ _ _ _ holds _ _ ranMerge
      split at ran
      · next moves =>
          have family : Shaped source ∧ kindOf kinds source = kindOf kinds record.root := by
            rcases merge_directories ranMerge with
              rfl | rfl | ⟨sourceNode, targetNode, isSource, isTarget, sourceDir, targetDir⟩
            · rw [not_rebases_self] at moves
              cases moves
            · exact ⟨SoundFor.shaped holds found, rfl⟩
            · refine ⟨SoundFor.shaped holds isSource, ?_⟩
              rw [← SoundFor.kind holds isSource, ← SoundFor.kind holds isTarget, sourceDir, targetDir]
          have rest : Keeps (SoundFor kinds streams) (do
              let successor ← moveToSuccessor source record.root
              setTxnRoot txn successor
              deleteNodeRevision record.root
              setTxnBase txn source : Trail Unit) :=
            (keeps_moveToSuccessor family.1 family.2).bind fun successor =>
              (keeps_setTxnRoot txn successor).bind fun _ =>
                (keeps_deleteNodeRevision _).bind fun _ => keeps_setTxnBase txn source
          exact rest _ after _ _ ran
      · exact keeps_setTxnBase txn source _ after _ _ ran
  intro fs holds value next ran
  obtain ⟨record, _, got, afterTxn⟩ := bind_ok.mp ran
  obtain rfl := reads_getTxn txn _ _ _ got
  obtain ⟨root, _, isRoot, afterRoot⟩ := bind_ok.mp afterTxn
  obtain ⟨found, rfl⟩ := getNodeRevision_ok.mp isRoot
  cases ancestor with
  | some ancestor => exact merged record ancestor _ holds ⟨root, found⟩ _ _ afterRoot
  | none =>
      obtain ⟨base, _, isBase, afterBase⟩ := bind_ok.mp afterRoot
      obtain ⟨-, rfl⟩ := getNodeRevision_ok.mp isBase
      exact merged record record.base _ holds ⟨root, found⟩ _ _ afterBase

theorem keeps_txnBodyCommit (depth txn : Nat) :
    Keeps (SoundFor kinds streams) (txnBodyCommit depth txn) := by
  apply reads_youngestRev.keeps.bind
  intro youngest
  apply (reads_revGetRoot youngest).keeps.bind
  intro youngestRoot
  apply (reads_getTxn txn).keeps.bind
  intro record
  apply (reads_getNodeRevision _).keeps.bind
  intro _
  exact (reads_ensure _ _).keeps.bind fun _ => keeps_commitTxn depth txn

theorem keeps_writeContents {stream : Stream} (member : stream ∈ streams) (bytes : Bytes) :
    Keeps (SoundFor kinds streams) (changeStore fun store => repWrite store stream.key bytes) := by
  rintro fs ⟨lists, sound⟩ value next ran
  obtain ⟨store, wrote, rfl⟩ := changeStore_ok.mp ran
  exact ⟨lists, sound.repWrite (sound.opened stream member).2 wrote⟩

/-- The stream is opened in a state as sound as the one before. -/
theorem txnBodyApplyTextdelta_opens (depth : Nat) (root : Root) (path : Bytes) :
    Ensures (SoundIn streams) (txnBodyApplyTextdelta depth root path)
      fun stream fs => ∃ before, SoundIn streams before ∧
        getEditStream depth stream.node before = .ok (stream.key, fs) := by
  refine (reads_openPath depth root path false).keeps.ensures fun parentPath => ?_
  refine (keeps_soundIn fun kinds =>
    keeps_makePathMutable depth root path parentPath).ensures fun id => ?_
  refine (reads_getNodeRevision id).keeps.ensures fun node => ?_
  refine (reads_ensure _ _).keeps.ensures ?_
  rintro _ fs holds stream next ran
  obtain ⟨key, middle, opened, ran⟩ := bind_ok.mp ran
  obtain ⟨rfl, rfl⟩ := pure_ok.mp ran
  exact ⟨fs, holds, opened⟩

/-- The opened stream is one more of the streams. -/
theorem txnBodyApplyTextdelta_sound (depth : Nat) (root : Root) (path : Bytes) :
    Ensures (SoundIn streams) (txnBodyApplyTextdelta depth root path)
      fun stream fs => SoundIn (stream :: streams) fs := by
  intro fs holds stream next ran
  obtain ⟨before, ⟨kinds, sound⟩, opened⟩ :=
    txnBodyApplyTextdelta_opens depth root path fs holds stream next ran
  exact ⟨kinds, getEditStream_sound depth stream.node before sound stream.key next opened⟩

/-- Each trail keeps the lists apart, whatever it does. -/
theorem runFsOp_sound (order : HashOrder) (depth : Nat) (op : FsOp) (allowed : op.Allowed streams) :
    Ensures (SoundIn streams) (runFsOp order depth op) fun opened fs => SoundIn (opened ++ streams) fs := by
  have quiet {A : Type} {program : Trail A} (keeps : Keeps (SoundIn streams) program) :
      Ensures (SoundIn streams) (do
        let _ ← program
        pure [] : Trail (List Stream)) fun opened fs => SoundIn (opened ++ streams) fs := by
    refine keeps.ensures fun _ => ?_
    intro fs holds opened next ran
    obtain ⟨rfl, rfl⟩ := pure_ok.mp ran
    exact holds
  cases op with
  | changeNodeProp root path name value =>
      exact quiet (keeps_txnBodyChangeNodeProp depth root path name value)
  | make root path kind => exact quiet (keeps_txnBodyMake depth root path kind)
  | delete root path deleteTree => exact quiet (keeps_txnBodyDelete depth root path deleteTree)
  | copy fromRoot fromPath toRoot toPath preserveHistory =>
      exact quiet (keeps_txnBodyCopy depth fromRoot fromPath toRoot toPath preserveHistory)
  | applyTextdelta root path =>
      refine Ensures.bind (txnBodyApplyTextdelta_sound depth root path) fun stream => ?_
      intro fs holds opened next ran
      obtain ⟨rfl, rfl⟩ := pure_ok.mp ran
      exact holds
  | writeContents stream bytes =>
      exact quiet (keeps_soundIn fun kinds => keeps_writeContents allowed bytes)
  | finalizeEdits stream => exact quiet (keeps_soundIn fun kinds => keeps_finalizeEdits stream.node)
  | beginTxn rev =>
      exact quiet ((reads_revGetRoot rev).keeps.bind fun root =>
        keeps_soundIn fun kinds => keeps_createTxn root)
  | merge txn source ancestor =>
      exact quiet (keeps_soundIn fun kinds => keeps_txnBodyMerge order depth txn source ancestor)
  | commitTxn txn => exact quiet (keeps_soundIn fun kinds => keeps_txnBodyCommit depth txn)
  | abortTxn txn =>
      exact quiet ((reads_getTxn txn).keeps.bind fun record =>
        (keeps_soundIn fun kinds => keeps_deleteIfMutable depth depth record.root).bind
          fun _ => keeps_soundIn fun kinds => keeps_deleteTxn txn)
  | deltify rev path doDeltify recursive =>
      exact quiet ((reads_getDag depth _ path).keeps.bind fun id =>
        keeps_soundIn fun kinds => keeps_deltifyUndeltify order depth doDeltify recursive depth id)

theorem dagInitFs_sound (path : String) : SoundIn [] (dagInitFs path) := by
  refine ⟨fun _ => .dir, ∅, RepsReachable.empty, by simp, ?_, by simp⟩
  intro id node found
  have stored : List.dlookup id [(⟨[0, 0], ⟨.dir, some 0, none, none, none, none⟩⟩ :
      Sigma fun _ : NodeId => NodeRev)] = some node := found
  by_cases root : id = [0, 0]
  · subst root
    rw [List.dlookup_cons_eq] at stored
    cases stored
    exact ⟨⟨0, 0, [], rfl, Branches.nil⟩, by decide, rfl, by simp, by simp, by simp⟩
  · rw [List.dlookup_cons_ne [] _ root] at stored
    cases stored

end Bodies

end Trail

/-- In every reachable state, the lists of directories are maps, and no other text is kept in
their reps. -/
theorem FsReachable.sound {fs : Filesystem} {streams : List Trail.Stream}
    (reachable : FsReachable fs streams) : Trail.SoundIn streams fs := by
  induction reachable with
  | start path => exact Trail.dagInitFs_sound path
  | @step fs next streams opened order depth op earlier allowed ran ih =>
      exact Trail.runFsOp_sound order depth op allowed fs ih opened next ran

end Subversion.Fs
