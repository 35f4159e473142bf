/-
This file shows which operations leave all directories as they are, with their lists of entries.
-/

import Subversion.Fs.Lineage

namespace Subversion.Fs

open Delta Transactions

/-- A list that the rep holds is still held. -/
def KeepsList (store next : Store) (key : Nat) : Prop :=
  ∀ rep entries, store.reps key = some rep → HoldsEntries store rep entries →
    ∃ rep', next.reps key = some rep' ∧ HoldsEntries next rep' entries

/-- The operation does not work on this rep, or its list cannot be changed. -/
def RepOp.Leaves (store : Store) (key : Nat) : RepOp → Prop
  | .write rep _ => key ≠ rep
  | .clear rep => key ≠ rep
  | .deltify target _ => key ≠ target
  | .deleteIfMutable rep => key ≠ rep ∨ Immutable store key
  | _ => True

section Store

variable {store middle next : Store} {key depth : Nat}

theorem KeepsList.refl (store : Store) (key : Nat) : KeepsList store store key :=
  fun rep _ found holds => ⟨rep, found, holds⟩

theorem KeepsList.trans (first : KeepsList store middle key) (second : KeepsList middle next key) :
    KeepsList store next key := by
  intro rep entries found holds
  obtain ⟨rep', found', holds'⟩ := first rep entries found holds
  exact second rep' entries found' holds'

theorem Replaces.keepsList {changed : Nat} {rep : Option Rep} (replaces : Replaces store next changed rep)
    (distinct : key ≠ changed) : KeepsList store next key := by
  intro found entries stored holds
  exact ⟨found, (replaces.other distinct).trans stored,
    holds.of_kept rfl (replaces.kept key found distinct stored)⟩

theorem KeepsList.op (reachable : RepsReachable store) {op : RepOp}
    (ran : runRepOp store depth op = .ok next) (leaves : op.Leaves store key) :
    KeepsList store next key := by
  have invariant := reachable.invariant
  intro found entries stored holds
  have small := invariant.in_range stored
  cases op with
  | getMutable rep =>
      simp only [runRepOp] at ran
      cases got : getMutableRep store depth rep with
      | error error => rw [got] at ran; cases ran
      | ok result =>
          rw [got] at ran
          cases ran
          rcases invariant.getMutableRep_replaces got with ⟨-, unchanged, -⟩ | ⟨isNew, -, _, _, replaces, -⟩
          · rw [unchanged]
            exact ⟨found, stored, holds⟩
          · exact replaces.keepsList (by omega) found entries stored holds
  | makeImmutable rep =>
      obtain ⟨old, present, strings, -, replaces⟩ := invariant.makeRepImmutable_replaces ran
      by_cases same : key = rep
      · subst same
        rw [stored] at present
        cases present
        exact ⟨_, replaces.this, holds.of_kept rfl fun strKey _ => by rw [strings]⟩
      · exact replaces.keepsList same found entries stored holds
  | deleteIfMutable rep =>
      obtain ⟨old, present, -, ⟨-, unchanged⟩ | ⟨mutable, replaces⟩⟩ :=
        invariant.deleteRepIfMutable_replaces ran
      · rw [unchanged]
        exact ⟨found, stored, holds⟩
      · refine replaces.keepsList ?_ found entries stored holds
        rcases leaves with distinct | ⟨other, isOther, flag⟩
        · exact distinct
        · rintro rfl
          rw [present] at isOther
          cases isOther
          rw [mutable] at flag
          cases flag
  | write rep bytes =>
      obtain ⟨old, -, -, -, -, replaces, -⟩ := invariant.repWrite_replaces ran
      exact replaces.keepsList leaves found entries stored holds
  | clear rep =>
      obtain ⟨old, -, -, -, -, -, replaces, -⟩ := invariant.repContentsClear_replaces ran
      exact replaces.keepsList leaves found entries stored holds
  | deltify target source =>
      obtain ⟨-, ⟨same, grows⟩ | ⟨_, _, _, _, deltified⟩⟩ := invariant.repDeltify_effect ran
      · refine ⟨found, by rw [same]; exact stored, holds.of_kept rfl fun strKey member => ?_⟩
        exact invariant.grown_kept grows stored member
      · exact deltified.replaces.keepsList leaves found entries stored holds
  | undeltify rep =>
      by_cases same : key = rep
      · -- a list is a fulltext already
        obtain ⟨distinct, strKey, kind, text⟩ := holds
        subst same
        have unchanged : next = store := by
          rw [runRepOp, repUndeltify, readRep, stored] at ran
          dsimp only at ran
          rw [kind] at ran
          exact (Except.ok.inj ran).symm
        rw [unchanged]
        exact ⟨found, stored, distinct, strKey, kind, text⟩
      · obtain ⟨-, unchanged | ⟨_, _, -, -, -, replaces⟩⟩ := invariant.repUndeltify_effect ran
        · rw [unchanged]
          exact ⟨found, stored, holds⟩
        · exact replaces.keepsList same found entries stored holds

end Store

/-- Directories keep their lists, though nodes may get other properties, texts or revisions. -/
structure Light (fs next : Filesystem) : Prop where
  kept : ∀ id node, fs.node id = some node → ∃ node', next.node id = some node' ∧ node'.kind = node.kind ∧
    (node.kind = .dir → node'.dataKey = node.dataKey)
  old : ∀ id node, next.node id = some node → ∃ node', fs.node id = some node'
  lists : ∀ id node key, fs.node id = some node → node.kind = .dir → node.dataKey = some key →
    KeepsList fs.store next.store key
  immutable : ∀ key, Immutable fs.store key → Immutable next.store key
  txns : next.txns = fs.txns
  revisions : next.revisions = fs.revisions

section Lightness

variable {fs middle next : Filesystem}

theorem Light.refl (fs : Filesystem) : Light fs fs :=
  ⟨fun _ node found => ⟨node, found, rfl, fun _ => rfl⟩, fun _ node found => ⟨node, found⟩,
    fun _ _ key _ _ _ => KeepsList.refl fs.store key, fun _ immutable => immutable, rfl, rfl⟩

theorem Light.trans (first : Light fs middle) (second : Light middle next) : Light fs next := by
  refine ⟨?_, ?_, ?_, fun key immutable => second.immutable key (first.immutable key immutable),
    second.txns.trans first.txns, second.revisions.trans first.revisions⟩
  · intro id node found
    obtain ⟨between, present, kind, data⟩ := first.kept id node found
    obtain ⟨last, stored, kind', data'⟩ := second.kept id between present
    exact ⟨last, stored, kind'.trans kind, fun isDir => (data' (kind.trans isDir)).trans (data isDir)⟩
  · intro id node found
    obtain ⟨between, present⟩ := second.old id node found
    exact first.old id between present
  · intro id node key found isDir isKey
    obtain ⟨between, present, kind, data⟩ := first.kept id node found
    exact (first.lists id node key found isDir isKey).trans
      (second.lists id between key present (kind.trans isDir) ((data isDir).trans isKey))

theorem Light.putNode {id : NodeId} {node : NodeRev} (found : fs.node id = some node) (new : NodeRev)
    (kind : new.kind = node.kind) (data : node.kind = .dir → new.dataKey = node.dataKey) :
    Light fs (fs.putNode id new) := by
  refine ⟨?_, ?_, fun _ _ key _ _ _ => KeepsList.refl fs.store key, fun _ immutable => immutable, rfl, rfl⟩
  · intro other old present
    rw [Filesystem.node_putNode]
    split
    · next same =>
        subst same
        rw [found] at present
        cases present
        exact ⟨new, rfl, kind, data⟩
    · exact ⟨old, present, rfl, fun _ => rfl⟩
  · intro other old present
    rw [Filesystem.node_putNode] at present
    split at present
    · next same => exact ⟨node, same ▸ found⟩
    · exact ⟨old, present⟩

variable {lists : Set Nat} {kinds : Nat → NodeKind} {streams : List Trail.Stream}

theorem Light.op (sound : Sound lists kinds streams fs) {op : RepOp} {store : Store} {depth : Nat}
    (ran : runRepOp fs.store depth op = .ok store)
    (leaves : ∀ key ∈ lists, op.Leaves fs.store key) : Light fs (fs.setStore store) := by
  refine ⟨fun _ node found => ⟨node, found, rfl, fun _ => rfl⟩, fun _ node found => ⟨node, found⟩, ?_, ?_,
    rfl, rfl⟩
  · intro id node key found isDir isKey
    exact KeepsList.op sound.reps ran (leaves key (((sound.fits found).data key isKey).2.mpr isDir))
  · exact fun key immutable => immutable.persists sound.reps ran

end Lightness

/-- The state can be reached from the other one by operations on reps that leave the lists alone. -/
structure Steady (kinds : Nat → NodeKind) (streams : List Trail.Stream) (start fs : Filesystem) : Prop where
  sound : SoundFor kinds streams fs
  light : Light start fs
  nodes : fs.nodes = start.nodes

namespace Trail

variable {kinds : Nat → NodeKind} {streams : List Stream} {start fs next : Filesystem}

section Deltification

theorem Steady.op (steady : Steady kinds streams start fs) {op : RepOp} {depth : Nat} {value : Unit}
    (leaves : ∀ lists, Sound lists kinds streams fs → ∀ key ∈ lists, op.Leaves fs.store key)
    (sound : SoundFor kinds streams next)
    (ran : changeStore (fun store => runRepOp store depth op) fs = .ok (value, next)) :
    Steady kinds streams start next := by
  obtain ⟨lists, before⟩ := steady.sound
  obtain ⟨store, changed, rfl⟩ := changeStore_ok.mp ran
  exact ⟨sound, steady.light.trans (Light.op before changed (leaves lists before)), steady.nodes⟩

theorem Steady.node (steady : Steady kinds streams start fs) (id : NodeId) : fs.node id = start.node id := by
  rw [Filesystem.node, steady.nodes, Filesystem.node]

theorem steady_deleteRepOf {key : Option Nat}
    (plain : ∀ lists fs, Sound lists kinds streams fs → fs.nodes = start.nodes → ∀ found, key = some found → found ∉ lists) :
    Keeps (Steady kinds streams start) (deleteRepOf key) := by
  intro fs steady value next ran
  have sound := keeps_deleteRepOf key _ steady.sound _ _ ran
  cases key with
  | none =>
      rw [(pure_ok.mp ran).2]
      exact steady
  | some key =>
      refine @Steady.op _ _ _ _ _ steady (.deleteIfMutable key) 0 value (fun lists before listed member => ?_) sound ran
      refine Or.inl ?_
      rintro rfl
      exact plain lists fs before steady.nodes listed rfl member

theorem steady_undeltifyRepOf (depth : Nat) (key : Option Nat) :
    Keeps (Steady kinds streams start) (undeltifyRepOf depth key) := by
  intro fs steady value next ran
  have sound := keeps_undeltifyRepOf depth key _ steady.sound _ _ ran
  cases key with
  | none =>
      rw [(pure_ok.mp ran).2]
      exact steady
  | some key => exact @Steady.op _ _ _ _ _ steady (.undeltify key) depth value (fun _ _ _ _ => trivial) sound ran

theorem steady_immutableRepOf (key : Option Nat) :
    Keeps (Steady kinds streams start) (immutableRepOf key) := by
  intro fs steady value next ran
  have sound := keeps_immutableRepOf key _ steady.sound _ _ ran
  cases key with
  | none =>
      rw [(pure_ok.mp ran).2]
      exact steady
  | some key => exact @Steady.op _ _ _ _ _ steady (.makeImmutable key) 0 value (fun _ _ _ _ => trivial) sound ran

theorem steady_repDeltify {depth target source : Nat}
    (unlisted : ∀ lists fs, Sound lists kinds streams fs → fs.nodes = start.nodes → target ∉ lists) :
    Keeps (Steady kinds streams start) (changeStore fun store => repDeltify store depth target source) := by
  intro fs steady value next ran
  have sound := (changeStore_deltify steady.sound
    (fun lists before => unlisted lists fs before steady.nodes) ran).1
  refine @Steady.op _ _ _ _ _ steady (.deltify target source) depth value (fun lists before listed member => ?_) sound ran
  rintro rfl
  exact unlisted lists fs before steady.nodes member

/-- Only the texts of files and the property lists of nodes are deltified. -/
theorem steady_deltify {target : NodeId} {propsOnly : Bool}
    (isFile : propsOnly = false → kindOf kinds target = .file) (depth : Nat) (source : NodeId) :
    Keeps (Steady kinds streams start) (deltify depth target source propsOnly) := by
  intro fs steady value next ran
  refine deltify_keeps ?_ steady ran
  intro node other key base found _ paired _
  refine steady_repDeltify fun lists fs' sound nodes listed => ?_
  have present : fs'.node target = some node := by
    rw [Filesystem.node, nodes, ← steady.nodes]
    exact found
  rcases paired with ⟨isProp, -⟩ | ⟨notProps, isData, -⟩
  · exact ((sound.fits present).prop key isProp).2 listed
  · have isDir := ((sound.fits present).data key isData).2.mp listed
    have kind := SoundFor.kind ⟨lists, sound⟩ present
    rw [isDir, isFile notProps] at kind
    cases kind

theorem steady_undeltify (depth : Nat) (id : NodeId) : Keeps (Steady kinds streams start) (undeltify depth id) :=
  (reads_getNodeRevision id).keeps.bind fun _ =>
    (steady_undeltifyRepOf depth _).bind fun _ => steady_undeltifyRepOf depth _

theorem steady_deltifyById {target : NodeId} {isDir : Bool}
    (isFile : isDir = false → kindOf kinds target = .file) (depth : Nat) :
    Keeps (Steady kinds streams start) (deltifyById depth target isDir) := by
  apply reads_get.keeps.bind
  intro fs
  split
  · exact steady_deltify isFile depth _
  · exact steady_deltify isFile depth _
  · exact keeps_pure _

theorem steady_deltifyUndeltify (order : HashOrder) (depth : Nat) (doDeltify recurse : Bool) (fuel : Nat) :
    ∀ id : NodeId,
      Keeps (Steady kinds streams start) (deltifyUndeltify order depth doDeltify recurse fuel id) := by
  induction fuel with
  | zero => exact fun _ => (reads_fail _).keeps
  | succ fuel ih =>
      intro id fs steady value next ran
      obtain ⟨node, _, got, rest⟩ := bind_ok.mp ran
      obtain ⟨found, rfl⟩ := getNodeRevision_ok.mp got
      have isKind := SoundFor.kind steady.sound found
      have last : Keeps (Steady kinds streams start) (if doDeltify then
          deltifyById depth id (node.kind = .dir) else undeltify depth id) := by
        split
        · exact steady_deltifyById (fun notDir => isKind ▸ kind_file notDir) depth
        · exact steady_undeltify depth id
      split at rest
      · refine Keeps.bind (reads_dirEntriesHash depth id).keeps (fun entries => ?_) _ steady value next rest
        refine Keeps.bind (keeps_forM fun entry _ => ?_) fun _ => last
        exact (reads_readStore _).keeps.bind ih
      · exact last _ steady value next rest

theorem steady_stableNode (depth : Nat) (id : NodeId) : Keeps (Steady kinds streams start) (stableNode depth id) := by
  intro fs steady value next ran
  obtain ⟨node, _, got, rest⟩ := bind_ok.mp ran
  obtain ⟨found, rfl⟩ := getNodeRevision_ok.mp got
  cases isPredecessor : idPredecessor id with
  | none =>
      rw [isPredecessor] at rest
      obtain ⟨-, rfl⟩ := pure_ok.mp rest
      exact steady
  | some predecessor =>
      rw [isPredecessor] at rest
      have same := idPredecessor_family (SoundFor.shaped steady.sound found) isPredecessor
      refine steady_deltify (fun notDir => ?_) depth id _ steady value next rest
      rw [kindOf, same]
      exact (SoundFor.kind steady.sound found).symm.trans (kind_file notDir)

end Deltification

end Trail

end Subversion.Fs
