/-
This file shows that the revisions of a node have one kind, and that the roots are directories.
-/

import Subversion.Fs.Changes
import Subversion.Fs.RoleSteps

namespace Subversion.Fs

open Transactions

/-- Ids can be read back, a node number stands for one kind of node, and roots have the number
zero. -/
structure Grounded (fs : Filesystem) : Prop where
  nodes : ∃ kinds : Nat → NodeKind, kinds 0 = .dir ∧
    AllNodes (fun id node => Shaped id ∧ WithinLimit id ∧ node.kind = kindOf kinds id) fs
  revisions : ∀ root ∈ fs.revisions, root.headD 0 = 0
  txns : ∀ txn record, fs.txns.lookup txn = some record → record.Numbered

section Ids

variable {fs : Filesystem} {id other : NodeId} {node found : NodeRev}

theorem Grounded.shaped (grounded : Grounded fs) : ∀ key ∈ fs.nodes.entries, Shaped key := by
  intro key present
  obtain ⟨node, stored⟩ := (Filesystem.mem_entries fs key).mp present
  obtain ⟨kinds, -, all⟩ := grounded.nodes
  exact (all key node stored).1

theorem Grounded.readable (grounded : Grounded fs) : ∀ key ∈ fs.nodes.entries, WithinLimit key := by
  intro key present
  obtain ⟨node, stored⟩ := (Filesystem.mem_entries fs key).mp present
  obtain ⟨kinds, -, all⟩ := grounded.nodes
  exact (all key node stored).2.1

theorem Grounded.kind (grounded : Grounded fs) (one : fs.node id = some node)
    (two : fs.node other = some found) (same : id.headD 0 = other.headD 0) : node.kind = found.kind := by
  obtain ⟨kinds, -, all⟩ := grounded.nodes
  rw [(all id node one).2.2, (all other found two).2.2, kindOf, kindOf, same]

theorem Grounded.root (grounded : Grounded fs) (stored : fs.node id = some node)
    (numbered : id.headD 0 = 0) : node.kind = .dir := by
  obtain ⟨kinds, isDir, all⟩ := grounded.nodes
  rw [(all id node stored).2.2, kindOf, numbered, isDir]

theorem Grounded.successor (grounded : Grounded fs) (stored : fs.node id = some node)
    (chosen : newSuccessorId fs.nodes id = .ok other) : Shaped other ∧ other.headD 0 = id.headD 0 :=
  newSuccessorId_family grounded.shaped
    (grounded.shaped id ((Filesystem.mem_entries fs id).mpr ⟨node, stored⟩)) chosen

theorem Grounded.fresh (grounded : Grounded fs) (stored : fs.node id = some node)
    (chosen : newSuccessorId fs.nodes id = .ok other) : fs.node other = none := by
  have unused := chosen_fresh grounded.shaped grounded.readable
    ((Filesystem.mem_entries fs id).mpr ⟨node, stored⟩) chosen
  exact AList.lookup_eq_none.mpr unused

/-- Every other node has a smaller number. -/
theorem Grounded.number (grounded : Grounded fs) (chosen : newNodeId fs.nodes = .ok other)
    (stored : fs.node id = some node) : id.headD 0 < other.headD 0 :=
  (newNodeId_family grounded.shaped grounded.readable chosen).2 id
    ((Filesystem.mem_entries fs id).mpr ⟨node, stored⟩)

theorem Grounded.newNode (grounded : Grounded fs) (chosen : newNodeId fs.nodes = .ok other) :
    fs.node other = none := by
  cases stored : fs.node other with
  | none => rfl
  | some node => exact absurd (grounded.number chosen stored) (lt_irrefl _)

end Ids

section Steps

variable {risky : Filesystem → Risk → Prop} {fs next : Filesystem}

/-- Nodes keep their kinds or are lost. -/
theorem Grounded.shrink (grounded : Grounded fs) (nodes : ∀ id node, next.node id = some node →
      ∃ old, fs.node id = some old ∧ node.kind = old.kind)
    (revisions : next.revisions = fs.revisions) (txns : next.txns = fs.txns) : Grounded next := by
  obtain ⟨kinds, isDir, all⟩ := grounded.nodes
  refine ⟨⟨kinds, isDir, ?_⟩, revisions ▸ grounded.revisions, txns ▸ grounded.txns⟩
  intro id node stored
  obtain ⟨old, found, kind⟩ := nodes id node stored
  obtain ⟨shaped, within, isKind⟩ := all id old found
  exact ⟨shaped, within, kind.trans isKind⟩

theorem Grounded.eraseNode (grounded : Grounded fs) (id : NodeId) : Grounded (fs.eraseNode id) := by
  refine grounded.shrink (fun other node stored => ?_) rfl rfl
  rw [Filesystem.node_eraseNode] at stored
  split at stored
  · cases stored
  · exact ⟨node, stored, rfl⟩

theorem Grounded.setStore (grounded : Grounded fs) (store : Store) : Grounded (fs.setStore store) :=
  grounded.shrink (fun _ node stored => ⟨node, stored, rfl⟩) rfl rfl

theorem Grounded.changeNode (grounded : Grounded fs) {id : NodeId} {node new : NodeRev}
    (stored : fs.node id = some node) (kind : new.kind = node.kind) : Grounded (fs.putNode id new) := by
  refine grounded.shrink (fun other found present => ?_) rfl rfl
  rw [Filesystem.node_putNode] at present
  split at present
  · next same =>
      cases present
      exact ⟨node, same ▸ stored, kind⟩
  · exact ⟨found, present, rfl⟩

theorem Grounded.newFamily (grounded : Grounded fs) {id : NodeId} (node : NodeRev)
    (chosen : newNodeId fs.nodes = .ok id) (within : WithinLimit id) : Grounded (fs.putNode id node) := by
  obtain ⟨kinds, isDir, all⟩ := grounded.nodes
  obtain ⟨shaped, -⟩ := newNodeId_family grounded.shaped grounded.readable chosen
  have positive : (0 : Nat) ≠ id.headD 0 := by
    obtain ⟨number, revision, rest, rfl, -⟩ := newNodeId_eq chosen
    exact Nat.succ_ne_zero number |>.symm
  refine ⟨⟨Function.update kinds (id.headD 0) node.kind, ?_, ?_⟩, grounded.revisions, grounded.txns⟩
  · rw [Function.update_of_ne positive]
    exact isDir
  · intro other found stored
    rw [Filesystem.node_putNode] at stored
    split at stored
    · next same =>
        cases stored
        subst same
        exact ⟨shaped, within, by rw [kindOf, Function.update_self]⟩
    · obtain ⟨otherShaped, otherWithin, kind⟩ := all other found stored
      refine ⟨otherShaped, otherWithin, ?_⟩
      rw [kindOf, Function.update_of_ne (grounded.number chosen stored).ne]
      exact kind

/-- The successor belongs to a node of the same kind. -/
theorem Grounded.newRevision (grounded : Grounded fs) {id old other : NodeId} {node found : NodeRev}
    (shaped : Shaped old) (chosen : newSuccessorId fs.nodes old = .ok id) (within : WithinLimit id)
    (stored : fs.node other = some found) (related : old.headD 0 = other.headD 0)
    (kind : node.kind = found.kind) : Grounded (fs.putNode id node) := by
  obtain ⟨kinds, isDir, all⟩ := grounded.nodes
  obtain ⟨idShaped, family⟩ := newSuccessorId_family grounded.shaped shaped chosen
  refine ⟨⟨kinds, isDir, ?_⟩, grounded.revisions, grounded.txns⟩
  intro changed new present
  rw [Filesystem.node_putNode] at present
  split at present
  · next same =>
      cases present
      subst same
      refine ⟨idShaped, within, ?_⟩
      rw [kind, (all other found stored).2.2, kindOf, kindOf, family, related]
  · exact all changed new present

/-- Every change keeps the kinds of nodes. -/
theorem Grounded.step (grounded : Grounded fs) (change : Change risky fs next) : Grounded next := by
  cases change with
  | txns nextTxn numbered _ => exact ⟨grounded.nodes, grounded.revisions, numbered⟩
  | @revision root numbered =>
      refine ⟨grounded.nodes, fun other member => ?_, grounded.txns⟩
      rcases List.mem_append.mp member with earlier | new
      · exact grounded.revisions other earlier
      · rw [List.mem_singleton.mp new]
        exact numbered
  | create kind chosen within => exact grounded.newFamily _ chosen within
  | copy origin found chosen within => exact grounded.newFamily _ chosen within
  | @succeed id old node found committed chosen within =>
      have shaped := grounded.shaped old ((Filesystem.mem_entries fs old).mpr ⟨node, found⟩)
      exact grounded.newRevision shaped chosen within found rfl rfl
  | @setProps id node proplist key store found mutable sets other =>
      exact (grounded.setStore store).changeNode found rfl
  | @resetProps id node proplist key store found mutable sets same => exact grounded.setStore store
  | @ownData id node key depth store found mutable got other =>
      exact (grounded.setStore store).changeNode found rfl
  | @ownEdit id node key depth store found isFile mutable unedited got =>
      exact (grounded.setStore store).changeNode found rfl
  | finalize found mutable edited => exact grounded.changeNode found rfl
  | remove found mutable => exact grounded.eraseNode _
  | rewrite noProps mutable wrote => exact grounded.setStore _
  | write risk wrote => exact grounded.setStore _
  | clear noProps cleared => exact grounded.setStore _
  | deleteRep deleted => exact grounded.setStore _
  | freeze made => exact grounded.setStore _
  | undeltify undeltified => exact grounded.setStore _
  | deltify isTarget isSource follows paired distinct committed deltified => exact grounded.setStore _
  | stabilize rev found mutable finished frozen => exact grounded.changeNode found rfl
  | adopt risk shaped isTarget isDir related chosen within =>
      exact grounded.newRevision shaped chosen within isTarget related rfl
  | drop risk found isDir => exact grounded.eraseNode _

end Steps

end Subversion.Fs
