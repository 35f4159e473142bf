/-
This file shows what successful trails have read and changed.
-/

import Subversion.Fs.Tree
import Subversion.Fs.NodeIds
import Subversion.Lib.Transactions

namespace Subversion.Fs

open Transactions

/-- The filesystem with another table of nodes in which the id has this node. -/
def Filesystem.putNode (fs : Filesystem) (id : NodeId) (node : NodeRev) : Filesystem :=
  { fs with nodes := putNodeRevision fs.nodes id node }

def Filesystem.eraseNode (fs : Filesystem) (id : NodeId) : Filesystem :=
  { fs with nodes := { fs.nodes with entries := fs.nodes.entries.erase id } }

def Filesystem.setStore (fs : Filesystem) (store : Store) : Filesystem := { fs with store := store }

section Parts

variable (fs : Filesystem) (id other : NodeId) (node : NodeRev) (store : Store)

theorem Filesystem.node_putNode :
    (fs.putNode id node).node other = if other = id then some node else fs.node other := by
  rw [Filesystem.node, Filesystem.putNode, Fs.putNodeRevision]
  by_cases same : other = id
  · rw [if_pos same, same]
    exact AList.lookup_insert fs.nodes.entries
  · rw [if_neg same]
    exact AList.lookup_insert_ne same

theorem Filesystem.node_eraseNode :
    (fs.eraseNode id).node other = if other = id then none else fs.node other := by
  rw [Filesystem.node, Filesystem.eraseNode]
  by_cases same : other = id
  · rw [if_pos same, same]
    exact AList.lookup_erase id fs.nodes.entries
  · rw [if_neg same]
    exact AList.lookup_erase_ne same

@[simp] theorem Filesystem.node_setStore : (fs.setStore store).node id = fs.node id := rfl

@[simp] theorem Filesystem.store_setStore : (fs.setStore store).store = store := rfl

theorem Filesystem.mem_entries : id ∈ fs.nodes.entries ↔ ∃ node, fs.node id = some node := by
  rw [← AList.lookup_isSome, Option.isSome_iff_exists]
  rfl

end Parts

section Runs

variable {fs next : Filesystem} {A : Type}

theorem ensure_ok {condition : Prop} [Decidable condition] {error : SvnError} {value : Unit} :
    ensure condition error fs = .ok (value, next) ↔ condition ∧ next = fs := by
  unfold ensure
  split
  · next holds => rw [pure_ok, and_iff_right rfl, and_iff_right holds]
  · next fails => exact ⟨fun impossible => absurd impossible nofun, fun holds => absurd holds.1 fails⟩

theorem withStore_ok {change : Store → Except SvnError (A × Store)} {value : A} :
    withStore change fs = .ok (value, next) ↔
      ∃ store, change fs.store = .ok (value, store) ∧ next = fs.setStore store := by
  unfold withStore
  split
  · next error failed => simp [failed]
  · next result store changed =>
      rw [changed]
      constructor
      · rintro ⟨⟩
        exact ⟨store, rfl, rfl⟩
      · rintro ⟨_, ⟨⟩, rfl⟩
        rfl

theorem withNodes_ok {change : NodesTable NodeRev → Except SvnError (A × NodesTable NodeRev)}
    {value : A} :
    withNodes change fs = .ok (value, next) ↔
      ∃ nodes, change fs.nodes = .ok (value, nodes) ∧ next = { fs with nodes := nodes } := by
  unfold withNodes
  split
  · next error failed => simp [failed]
  · next result nodes changed =>
      rw [changed]
      constructor
      · rintro ⟨⟩
        exact ⟨nodes, rfl, rfl⟩
      · rintro ⟨_, ⟨⟩, rfl⟩
        rfl

theorem map_ok {E B C : Type} {result : Except E B} {change : B → C} {value : C} :
    result.map change = .ok value ↔ ∃ found, result = .ok found ∧ change found = value := by
  cases result with
  | error error => simp [Except.map]
  | ok found => simp [Except.map]

theorem changeStore_ok {change : Store → Except SvnError Store} {value : Unit} :
    changeStore change fs = .ok (value, next) ↔
      ∃ store, change fs.store = .ok store ∧ next = fs.setStore store := by
  simp [changeStore, withStore_ok, map_ok]

theorem readStore_ok {read : Store → Except SvnError A} {value : A} :
    readStore read fs = .ok (value, next) ↔ read fs.store = .ok value ∧ next = fs := by
  simp only [readStore, withStore_ok, map_ok, Prod.mk.injEq]
  constructor
  · rintro ⟨store, ⟨found, result, rfl, rfl⟩, rfl⟩
    exact ⟨result, rfl⟩
  · rintro ⟨result, rfl⟩
    exact ⟨next.store, ⟨value, result, rfl, rfl⟩, rfl⟩

namespace Trail

theorem getNodeRevision_ok {id : NodeId} {node : NodeRev} :
    getNodeRevision id fs = .ok (node, next) ↔ fs.node id = some node ∧ next = fs := by
  simp only [getNodeRevision, withNodes_ok, map_ok, Prod.mk.injEq, Fs.getNodeRevision,
    Filesystem.node]
  constructor
  · rintro ⟨nodes, ⟨found, result, rfl, rfl⟩, rfl⟩
    split at result
    · next other found =>
        cases result
        exact ⟨found, rfl⟩
    · cases result
  · rintro ⟨found, rfl⟩
    exact ⟨next.nodes, ⟨node, by rw [found], rfl, rfl⟩, rfl⟩

theorem putNodeRevision_ok {id : NodeId} {node : NodeRev} {value : Unit} :
    putNodeRevision id node fs = .ok (value, next) ↔
      isValidNodeRevision node = true ∧ next = fs.putNode id node := by
  rw [putNodeRevision, withNodes_ok]
  by_cases valid : isValidNodeRevision node = true
  · simp [valid, Filesystem.putNode]
  · simp [valid]

theorem chooseId_ok {choice : NodesTable NodeRev → Except SvnError NodeId} {id : NodeId} :
    chooseId choice fs = .ok (id, next) ↔ choice fs.nodes = .ok id ∧ WithinLimit id ∧ next = fs := by
  unfold chooseId
  split
  · next error failed => simp [failed]
  · next found chosen =>
      rw [chosen]
      by_cases within : WithinLimit found
      · rw [if_pos within]
        constructor
        · rintro ⟨⟩
          exact ⟨rfl, within, rfl⟩
        · rintro ⟨⟨⟩, -, rfl⟩
          rfl
      · rw [if_neg within]
        constructor
        · rintro ⟨⟩
        · rintro ⟨⟨⟩, holds, -⟩
          exact absurd holds within

theorem deleteNodeRevision_ok {id : NodeId} {value : Unit} :
    deleteNodeRevision id fs = .ok (value, next) ↔
      (∃ node, fs.node id = some node) ∧ next = fs.eraseNode id := by
  simp only [deleteNodeRevision, withNodes_ok, map_ok, Prod.mk.injEq, deleteNodesEntry,
    Filesystem.node, true_and]
  constructor
  · rintro ⟨nodes, ⟨found, result, rfl⟩, rfl⟩
    split at result
    · next node present =>
        cases result
        exact ⟨⟨node, present⟩, rfl⟩
    · cases result
  · rintro ⟨⟨node, present⟩, rfl⟩
    exact ⟨_, ⟨_, by rw [present], rfl⟩, rfl⟩

theorem createNode_ok {node : NodeRev} {id : NodeId} :
    createNode node fs = .ok (id, next) ↔ newNodeId fs.nodes = .ok id ∧ WithinLimit id ∧
      isValidNodeRevision node = true ∧ next = fs.putNode id node := by
  simp only [createNode, bind_ok, chooseId_ok, putNodeRevision_ok, pure_ok]
  constructor
  · rintro ⟨_, _, ⟨chosen, within, rfl⟩, -, _, ⟨valid, rfl⟩, rfl, rfl⟩
    exact ⟨chosen, within, valid, rfl⟩
  · rintro ⟨chosen, within, valid, rfl⟩
    exact ⟨_, _, ⟨chosen, within, rfl⟩, (), _, ⟨valid, rfl⟩, rfl, rfl⟩

theorem createSuccessor_ok {oldId id : NodeId} {node : NodeRev} :
    createSuccessor oldId node fs = .ok (id, next) ↔ Fs.newSuccessorId fs.nodes oldId = .ok id ∧
      WithinLimit id ∧ isValidNodeRevision node = true ∧ next = fs.putNode id node := by
  simp only [createSuccessor, newSuccessorId, bind_ok, chooseId_ok, putNodeRevision_ok, pure_ok]
  constructor
  · rintro ⟨_, _, ⟨chosen, within, rfl⟩, -, _, ⟨valid, rfl⟩, rfl, rfl⟩
    exact ⟨chosen, within, valid, rfl⟩
  · rintro ⟨chosen, within, valid, rfl⟩
    exact ⟨_, _, ⟨chosen, within, rfl⟩, (), _, ⟨valid, rfl⟩, rfl, rfl⟩

/-- Deltifying a node is a deltification of its properties, and then one of its data. -/
theorem deltify_keeps {kept : Filesystem → Prop} {depth : Nat} {target source : NodeId} {propsOnly : Bool}
    {value : Unit}
    (step : ∀ older newer key base, fs.node target = some older → fs.node source = some newer →
      older.propKey = some key ∧ newer.propKey = some base ∨
        propsOnly = false ∧ older.dataKey = some key ∧ newer.dataKey = some base →
      key ≠ base → Keeps kept (changeStore fun store => repDeltify store depth key base))
    (holds : kept fs) (ran : deltify depth target source propsOnly fs = .ok (value, next)) : kept next := by
  simp only [deltify, bind_ok, getNodeRevision_ok] at ran
  obtain ⟨older, _, ⟨isTarget, rfl⟩, newer, _, ⟨isSource, rfl⟩, ran⟩ := ran
  have props {key base : Nat} (isProp : older.propKey = some key) (isBase : newer.propKey = some base) :=
    step older newer key base isTarget isSource (Or.inl ⟨isProp, isBase⟩)
  have data {key base : Nat} (texts : propsOnly = false) (isData : older.dataKey = some key)
      (isBase : newer.dataKey = some base) :=
    step older newer key base isTarget isSource (Or.inr ⟨texts, isData, isBase⟩)
  refine (?_ : Keeps kept _) _ holds value next ran
  split
  on_goal 1 =>
    rename_i isProp isBase
    split
  on_goal 2 =>
    rename_i distinct
    refine (props isProp isBase distinct).bind fun _ => ?_
  -- what is left is the data, in each case
  all_goals
    split
    · next isData isBase =>
        split
        · exact keeps_pure ()
        · next whole =>
            refine data ?_ isData isBase fun same => whole (Or.inr same)
            simpa using fun only => whole (Or.inl only)
    · exact keeps_pure ()

end Trail

end Runs

end Subversion.Fs
