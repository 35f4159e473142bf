/-
This file shows that a representation of a file is built from later representations of files only.
-/

import Subversion.Fs.Lineage

namespace Subversion.Fs

open Transactions

section Bases

variable {store next : Store} {depth key base : Nat} {risk : Nat → Prop}

/-- A rep that is replaced by a fulltext, or that keeps its kind, gets no new base. -/
theorem DeltaBase.of_replaces {changed : Nat} {rep : Option Rep} (replaces : Replaces store next changed rep)
    (kinds : ∀ found, rep = some found → (∃ strKey, found.kind = .fulltext strKey) ∨
      ∃ old, store.reps changed = some old ∧ found.kind = old.kind)
    (isBase : DeltaBase next key base) : DeltaBase store key base := by
  obtain ⟨found, windows, entry, stored, kind, member, same⟩ := isBase
  by_cases isChanged : key = changed
  · subst isChanged
    rw [replaces.this] at stored
    rcases kinds found stored with ⟨strKey, isFulltext⟩ | ⟨old, isOld, sameKind⟩
    · rw [kind] at isFulltext
      cases isFulltext
    · exact ⟨old, windows, entry, isOld, sameKind ▸ kind, member, same⟩
  · rw [replaces.other isChanged] at stored
    exact ⟨found, windows, entry, stored, kind, member, same⟩

/-- Quiet operations make no new base, and keys are never handed out twice. -/
theorem Quiet.bases (invariant : RepsInvariant store) {op : RepOp} (quiet : Quiet risk store op)
    (ran : runRepOp store depth op = .ok next) :
    store.nextRep ≤ next.nextRep ∧ ∀ key base, DeltaBase next key base → DeltaBase store key base := by
  have replaced {changed : Nat} {rep : Option Rep} (replaces : Replaces store next changed rep)
      (kinds : ∀ found, rep = some found → (∃ strKey, found.kind = .fulltext strKey) ∨
        ∃ old, store.reps changed = some old ∧ found.kind = old.kind) :
      store.nextRep ≤ next.nextRep ∧ ∀ key base, DeltaBase next key base → DeltaBase store key base :=
    ⟨replaces.nextRep, fun _ _ => DeltaBase.of_replaces replaces kinds⟩
  have unchanged (same : next = store) :
      store.nextRep ≤ next.nextRep ∧ ∀ key base, DeltaBase next key base → DeltaBase store key base := by
    rw [same]
    exact ⟨le_rfl, fun _ _ => id⟩
  cases op with
  | getMutable rep =>
      simp only [runRepOp] at ran
      cases got : getMutableRep store depth rep with
      | error error => rw [got] at ran; cases ran
      | ok result =>
          rw [got] at ran
          cases ran
          rcases invariant.getMutableRep_replaces got with ⟨-, same, -⟩ | ⟨-, -, strKey, _, replaces, -⟩
          · exact unchanged same
          · exact replaced replaces fun found isFound => Or.inl ⟨strKey, by cases isFound; rfl⟩
  | makeImmutable rep =>
      obtain ⟨old, found, -, -, replaces⟩ := invariant.makeRepImmutable_replaces ran
      exact replaced replaces fun new isNew => Or.inr ⟨old, found, by cases isNew; rfl⟩
  | deleteIfMutable rep =>
      obtain ⟨old, -, -, ⟨-, same⟩ | ⟨-, replaces⟩⟩ := invariant.deleteRepIfMutable_replaces ran
      · exact unchanged same
      · exact replaced replaces fun new isNew => by cases isNew
  | write rep bytes =>
      obtain ⟨old, strKey, found, -, -, replaces, -⟩ := invariant.repWrite_replaces ran
      exact replaced replaces fun new isNew => Or.inr ⟨old, found, by cases isNew; rfl⟩
  | clear rep =>
      obtain ⟨old, strKey, found, -, -, -, replaces, -⟩ := invariant.repContentsClear_replaces ran
      exact replaced replaces fun new isNew => Or.inr ⟨old, found, by cases isNew; rfl⟩
  | deltify target source => exact quiet.elim
  | undeltify rep =>
      obtain ⟨-, same | ⟨text, strKey, -, -, -, replaces⟩⟩ := invariant.repUndeltify_effect ran
      · exact unchanged same
      · exact replaced replaces fun new isNew => Or.inl ⟨strKey, by cases isNew; rfl⟩

theorem Touches.bases (reachable : RepsReachable store) (touches : Touches risk store next) :
    store.nextRep ≤ next.nextRep ∧ ∀ key base, DeltaBase next key base → DeltaBase store key base := by
  induction touches with
  | refl => exact ⟨le_rfl, fun _ _ => id⟩
  | tail earlier step ih =>
      obtain ⟨depth, op, quiet, ran⟩ := step
      obtain ⟨grows, bases⟩ := Quiet.bases (reachable.run earlier).invariant quiet ran
      exact ⟨ih.1.trans grows, fun key base isBase => ih.2 key base (bases key base isBase)⟩

/-- A deltification makes the one new base. -/
theorem repDeltify_bases (invariant : RepsInvariant store) {target source : Nat}
    (deltified : repDeltify store depth target source = .ok next) :
    next.nextRep = store.nextRep ∧ ∀ key base, DeltaBase next key base →
      DeltaBase store key base ∨ key = target ∧ base = source := by
  obtain ⟨nextRep, ⟨reps, -⟩ | ⟨sourceText, targetText, entry, window, effect⟩⟩ :=
    invariant.repDeltify_effect deltified
  · refine ⟨nextRep, fun key base isBase => Or.inl ?_⟩
    unfold DeltaBase at isBase ⊢
    rw [← reps]
    exact isBase
  · refine ⟨nextRep, ?_⟩
    rintro key base ⟨found, windows, other, stored, kind, member, same⟩
    by_cases isTarget : key = target
    · subst isTarget
      rw [effect.replaces.this] at stored
      cases stored
      cases kind
      rw [List.mem_singleton.mp member, effect.base] at same
      exact Or.inr ⟨rfl, same.symm⟩
    · rw [effect.replaces.other isTarget] at stored
      exact Or.inl ⟨found, windows, other, stored, kind, member, same⟩

end Bases

/-- The node names the rep. -/
def NodeRev.Names (node : NodeRev) (key : Nat) : Prop :=
  node.propKey = some key ∨ node.dataKey = some key ∨ node.editKey = some key

/-- The reps of files are not those of directories, and each is built from later ones. -/
structure FileReps (files : Set Nat) (fs : Filesystem) : Prop where
  named : ∀ id node, fs.node id = some node → ∀ key, node.Names key →
    key < fs.store.nextRep ∧ (key ∈ files ↔ node.kind = .file)
  small : ∀ key ∈ files, key < fs.store.nextRep
  ordered : ∀ key ∈ files, ∀ base, DeltaBase fs.store key base → base ∈ files ∧ key < base

/-- Only keys that were not handed out yet are added. -/
def Extends (fs : Filesystem) (files more : Set Nat) : Prop :=
  files ⊆ more ∧ ∀ key ∈ more, key < fs.store.nextRep → key ∈ files

theorem Extends.refl (fs : Filesystem) (files : Set Nat) : Extends fs files files :=
  ⟨subset_rfl, fun _ member _ => member⟩

section Steps

variable {risky : Filesystem → Risk → Prop} {fs next : Filesystem} {files : Set Nat}

/-- Nodes name no other reps than before. -/
theorem FileReps.keep (reps : FileReps files fs) (grows : fs.store.nextRep ≤ next.store.nextRep)
    (bases : ∀ key ∈ files, ∀ base, DeltaBase next.store key base → base ∈ files ∧ key < base)
    (nodes : ∀ id node, next.node id = some node → ∀ key, node.Names key →
      ∃ other old, fs.node other = some old ∧ old.kind = node.kind ∧ old.Names key) :
    FileReps files next := by
  refine ⟨fun id node stored key names => ?_, fun key member => (reps.small key member).trans_le grows,
    bases⟩
  obtain ⟨other, old, found, kind, named⟩ := nodes id node stored key names
  obtain ⟨small, isFile⟩ := reps.named other old found key named
  exact ⟨small.trans_le grows, isFile.trans (by rw [kind])⟩

theorem FileReps.touch (reps : FileReps files fs) (reachable : RepsReachable fs.store) {risk : Nat → Prop}
    (touches : Touches risk fs.store next.store)
    (nodes : ∀ id node, next.node id = some node → ∀ key, node.Names key →
      ∃ other old, fs.node other = some old ∧ old.kind = node.kind ∧ old.Names key) :
    FileReps files next := by
  obtain ⟨grows, bases⟩ := touches.bases reachable
  exact reps.keep grows (fun key member base isBase => reps.ordered key member base (bases key base isBase))
    nodes

/-- A node takes a new rep, which is one of a file if the node is. -/
theorem FileReps.own (reps : FileReps files fs) (reachable : RepsReachable fs.store) {id : NodeId}
    {node new : NodeRev} (found : fs.node id = some node) {depth key : Nat} {rep : Option Nat}
    {middle store : Store} (got : getMutableRep fs.store depth rep = .ok (key, middle))
    (other : rep ≠ some key) {risk : Nat → Prop} (touches : Touches risk middle store)
    (kind : new.kind = node.kind) (names : ∀ k, new.Names k → k = key ∨ node.Names k) :
    ∃ more, Extends fs files more ∧ FileReps more ((fs.setStore store).putNode id new) := by
  have whole : Touches risk fs.store store := (Touches.getMutable got).trans touches
  obtain ⟨grows, bases⟩ := whole.bases reachable
  obtain ⟨isNew, inRange⟩ : key = fs.store.nextRep ∧ key < store.nextRep := by
    rcases reachable.invariant.getMutableRep_replaces got with ⟨same, -⟩ | ⟨isNew, larger, -⟩
    · exact absurd same other
    · have further := (touches.bases (reachable.run (@Touches.getMutable _ _ _ _ risk _ got))).1
      exact ⟨isNew, by omega⟩
  -- the key is new, so it is no key of the others
  have unlisted : key ∉ files := fun member => by
    have small := reps.small key member
    omega
  refine ⟨files ∪ { k | k = key ∧ node.kind = .file }, ⟨Set.subset_union_left, ?_⟩, ?_, ?_, ?_⟩
  · rintro k (member | ⟨rfl, -⟩) small
    · exact member
    · omega
  · intro changed found' stored k named
    rw [Filesystem.node_putNode] at stored
    have earlier {other : NodeId} {old : NodeRev} (present : fs.node other = some old) (isName : old.Names k) :
        k < store.nextRep ∧ (k ∈ files ∪ { k | k = key ∧ node.kind = .file } ↔ old.kind = .file) := by
      obtain ⟨small, isFile⟩ := reps.named other old present k isName
      refine ⟨small.trans_le grows, ?_⟩
      rw [Set.mem_union, isFile]
      exact or_iff_left fun ⟨same, _⟩ => by omega
    split at stored
    · cases stored
      rcases names k named with rfl | isName
      · refine ⟨inRange, ?_⟩
        rw [Set.mem_union, kind]
        exact ⟨fun member => member.elim (fun listed => absurd listed unlisted) And.right,
          fun isFile => Or.inr ⟨rfl, isFile⟩⟩
      · rw [kind]
        exact earlier found isName
    · exact earlier stored named
  · rintro k (member | ⟨rfl, -⟩)
    · exact (reps.small k member).trans_le grows
    · exact inRange
  · rintro k (member | ⟨rfl, -⟩) base isBase
    · obtain ⟨listed, later⟩ := reps.ordered k member base (bases k base isBase)
      exact ⟨Or.inl listed, later⟩
    · obtain ⟨rep, windows, entry, stored, -⟩ := bases k base isBase
      exact absurd (reachable.invariant.in_range stored) (by omega)

/-- A later revision or a first branch has this one as its predecessor. -/
theorem Follows.predecessor {target source : NodeId} (numbered : Numbered target)
    (follows : Follows target source) : idPredecessor source = some target := by
  rcases follows with isPredecessor | rfl | rfl
  · exact isPredecessor
  · obtain ⟨front, number, revision, pairs, started, rfl⟩ := numbered.exists_last
    rw [nextRevision_append]
    exact (successorFollows_next front number revision).mpr started
  · obtain ⟨node, first, rest, rfl, -⟩ := numbered
    exact idPredecessor_branch _ (List.cons_ne_nil _ _) 1

theorem Follows.family {target source : NodeId} (targetShaped : Shaped target) (sourceShaped : Shaped source)
    (follows : Follows target source) : target.headD 0 = source.headD 0 := by
  rcases follows with isPredecessor | rfl | rfl
  · exact Trail.idPredecessor_family sourceShaped isPredecessor
  · obtain ⟨front, number, revision, pairs, rfl⟩ := targetShaped.exists_last
    rw [nextRevision_append]
    cases front <;> rfl
  · obtain ⟨node, revision, rest, rfl, -⟩ := targetShaped
    rfl

/-- When a rep of a file is deltified, the file is committed, and the new base is a later rep of its
successor. -/
theorem FileReps.deltified (reps : FileReps files fs) (grounded : Grounded fs) (lined : Lined fs)
    {key base : Nat} {store : Store} (deltifies : Deltifies risky fs key base store) (member : key ∈ files) :
    base ∈ files ∧ key < base ∧ ∃ target older source newer, fs.node target = some older ∧ older.rev ≠ none ∧
      (older.propKey = some key ∨ older.dataKey = some key) ∧ fs.node source = some newer ∧
      (newer.propKey = some base ∨ newer.dataKey = some base) ∧
      (newer.rev ≠ none ∨ risky fs (.deltify source)) := by
  obtain ⟨target, source, older, newer, isTarget, isSource, follows, paired, committed⟩ := deltifies.nodes
  have isKey : older.propKey = some key ∨ older.dataKey = some key :=
    paired.imp And.left fun texts => texts.2.1
  have isBase : newer.propKey = some base ∨ newer.dataKey = some base :=
    paired.imp And.right fun texts => texts.2.2
  have shaped {id : NodeId} {node : NodeRev} (found : fs.node id = some node) : Shaped id :=
    grounded.shaped id ((Filesystem.mem_entries fs id).mpr ⟨node, found⟩)
  have isFile : older.kind = .file :=
    (reps.named target older isTarget key (isKey.imp_right Or.inl)).2.mp member
  have same : newer.kind = .file :=
    (grounded.kind isSource isTarget (follows.family (shaped isTarget) (shaped isSource)).symm).trans isFile
  have isPredecessor := follows.predecessor (lined target older isTarget isFile).1
  obtain ⟨other, isOther, -, done, behind⟩ := (lined source newer isSource same).2 target isPredecessor
  rw [isTarget] at isOther
  cases isOther
  have le : key ≤ base := by
    rcases paired with ⟨prop, later⟩ | ⟨-, data, later⟩
    · obtain ⟨found, isFound, le⟩ := behind.props key prop
      rw [later] at isFound
      cases isFound
      exact le
    · obtain ⟨found, isFound, le⟩ := behind.data key data
      rw [later] at isFound
      cases isFound
      exact le
  refine ⟨?_, lt_of_le_of_ne le deltifies.distinct, target, older, source, newer, isTarget, done, isKey,
    isSource, isBase, committed⟩
  exact (reps.named source newer isSource base (isBase.imp_right Or.inl)).2.mpr same

theorem FileReps.step (reps : FileReps files fs) (grounded : Grounded fs) (lined : Lined fs)
    (reachable : RepsReachable fs.store) (change : Change risky fs next) :
    ∃ more, Extends fs files more ∧ FileReps more next := by
  -- a node that is put into the table names reps of another of its kind
  have put {store : Store} {id : NodeId} {new : NodeRev} (names : ∀ key, new.Names key →
      ∃ other old, fs.node other = some old ∧ old.kind = new.kind ∧ old.Names key) :
      ∀ other node, ((fs.setStore store).putNode id new).node other = some node → ∀ key, node.Names key →
        ∃ other old, fs.node other = some old ∧ old.kind = node.kind ∧ old.Names key := by
    intro other node stored key named
    rw [Filesystem.node_putNode] at stored
    split at stored
    · cases stored
      exact names key named
    · exact ⟨other, node, stored, rfl, named⟩
  have erase {id : NodeId} : ∀ other node, (fs.eraseNode id).node other = some node → ∀ key, node.Names key →
      ∃ other old, fs.node other = some old ∧ old.kind = node.kind ∧ old.Names key :=
    fun other node stored key named => ⟨other, node, node_of_eraseNode stored, rfl, named⟩
  have quiet (store : fs.store = next.store) (nodes : ∀ id node, next.node id = some node → ∀ key,
      node.Names key → ∃ other old, fs.node other = some old ∧ old.kind = node.kind ∧ old.Names key) :
      ∃ more, Extends fs files more ∧ FileReps more next :=
    ⟨files, Extends.refl fs files, reps.keep (by rw [store]) (fun key member base isBase =>
      reps.ordered key member base (by rw [store]; exact isBase)) nodes⟩
  have unchanged (store : Store) : Touches (fun _ => False) store store := Relation.ReflTransGen.refl
  have effect := change.touches reachable
  cases change with
  | create kind chosen within =>
      refine quiet rfl (@put fs.store _ _ fun key named => ?_)
      rcases named with impossible | impossible | impossible <;> cases impossible
  | copy origin found chosen within =>
      exact quiet rfl (@put fs.store _ _ fun key named => ⟨_, _, found, rfl, named⟩)
  | succeed found committed chosen within =>
      exact quiet rfl (@put fs.store _ _ fun key named => ⟨_, _, found, rfl, named⟩)
  | setProps found mutable sets other =>
      obtain ⟨depth, first, got, touches⟩ := @SetsProps.touches _ _ (fun _ => False) _ _ _ reachable sets
      refine reps.own reachable found got other touches rfl fun key named => ?_
      rcases named with isKey | named
      · exact Or.inl (Option.some.inj isKey).symm
      · exact Or.inr (Or.inr named)
  | ownData found mutable got other =>
      refine reps.own reachable found got other (unchanged _) rfl fun key named => ?_
      rcases named with isProp | isKey | isEdit
      · exact Or.inr (Or.inl isProp)
      · exact Or.inl (Option.some.inj isKey).symm
      · exact Or.inr (Or.inr (Or.inr isEdit))
  | ownEdit found isFile mutable unedited got =>
      refine reps.own reachable found got (by simp) (unchanged _) rfl fun key named => ?_
      rcases named with isProp | isData | isKey
      · exact Or.inr (Or.inl isProp)
      · exact Or.inr (Or.inr (Or.inl isData))
      · exact Or.inl (Option.some.inj isKey).symm
  | finalize found mutable edited =>
      refine quiet rfl (@put fs.store _ _ fun key named => ⟨_, _, found, rfl, ?_⟩)
      rcases named with isProp | isKey | isEdit
      · exact Or.inl isProp
      · exact Or.inr (Or.inr (edited.trans isKey))
      · cases isEdit
  | stabilize rev found mutable finished frozen =>
      exact quiet rfl (@put fs.store _ _ fun key named => ⟨_, _, found, rfl, named⟩)
  | adopt risk shaped isTarget isDir related chosen within =>
      exact quiet rfl (@put fs.store _ _ fun key named => ⟨_, _, isTarget, rfl, named⟩)
  | remove found mutable => exact quiet rfl erase
  | drop risk found isDir => exact quiet rfl erase
  | txns nextTxn numbered _ => exact quiet rfl fun id node stored key named => ⟨id, node, stored, rfl, named⟩
  | revision numbered => exact quiet rfl fun id node stored key named => ⟨id, node, stored, rfl, named⟩
  | _ =>
      refine ⟨files, Extends.refl fs files, ?_⟩
      rcases effect with touches | ⟨key, base, deltifies⟩
      · exact reps.touch reachable touches fun id node stored key named => ⟨id, node, stored, rfl, named⟩
      · obtain ⟨depth, deltified⟩ := deltifies.deltified
        obtain ⟨nextRep, bases⟩ := repDeltify_bases reachable.invariant deltified
        refine reps.keep nextRep.ge (fun other member found isBase => ?_)
          fun id node stored key named => ⟨id, node, stored, rfl, named⟩
        rcases bases other found isBase with earlier | ⟨rfl, rfl⟩
        · exact reps.ordered other member found earlier
        · obtain ⟨listed, later, -⟩ := reps.deltified grounded lined deltifies member
          exact ⟨listed, later⟩

end Steps

end Subversion.Fs
