/-
This file shows that the operations on nodes keep lists of entries apart from other representations.
-/

import Subversion.Fs.RepRoles
import Subversion.Fs.Runs

namespace Subversion.Fs

open Cursor Delta Framing Transactions

section Reps

variable {lists : Set Nat} {kinds : Nat → NodeKind} {streams : List Trail.Stream} {fs : Filesystem}
  {store : Store} {depth key : Nat}

/-- A rep that is no list, or none at all, is made mutable. -/
theorem Sound.getMutableRep (sound : Sound lists kinds streams fs) {rep : Option Nat}
    (plain : ∀ old, rep = some old → Plain lists fs.store.nextRep old)
    (got : getMutableRep fs.store depth rep = .ok (key, store)) :
    Sound lists kinds streams (fs.setStore store) ∧ Plain lists store.nextRep key := by
  have reps : RepsReachable store :=
    sound.reps.step (show runRepOp fs.store depth (.getMutable rep) = .ok store by
      rw [runRepOp, got]
      rfl)
  rcases sound.invariant.getMutableRep_replaces got with
    ⟨same, rfl, -⟩ | ⟨rfl, -, strKey, bytes, replaces, -⟩
  · exact ⟨sound, plain key same⟩
  · exact ⟨sound.replace reps replaces sound.new_unlisted,
      replaces.inRange (by simp), sound.new_unlisted⟩

theorem Sound.makeRepImmutable (sound : Sound lists kinds streams fs)
    (made : makeRepImmutable fs.store key = .ok store) : Sound lists kinds streams (fs.setStore store) := by
  have reps : RepsReachable store :=
    sound.reps.step (show runRepOp fs.store 0 (.makeImmutable key) = .ok store from made)
  obtain ⟨old, found, strings, -, replaces⟩ := sound.invariant.makeRepImmutable_replaces made
  apply sound.setStore reps replaces.nextRep
  intro other _ rep stored
  by_cases same : other = key
  · subst same
    rw [replaces.this] at stored
    cases stored
    exact ⟨old, found, rfl, fun strKey _ => by rw [strings]⟩
  · rw [replaces.other same] at stored
    exact ⟨rep, stored, rfl, replaces.kept other rep same stored⟩

theorem Sound.deleteRepIfMutable (sound : Sound lists kinds streams fs)
    (deleted : deleteRepIfMutable fs.store key = .ok store) :
    Sound lists kinds streams (fs.setStore store) := by
  have reps : RepsReachable store :=
    sound.reps.step (show runRepOp fs.store 0 (.deleteIfMutable key) = .ok store from deleted)
  obtain ⟨old, found, -, ⟨-, rfl⟩ | ⟨-, replaces⟩⟩ :=
    sound.invariant.deleteRepIfMutable_replaces deleted
  · exact sound
  · apply sound.setStore reps replaces.nextRep
    intro other _ rep stored
    have distinct : other ≠ key := by
      rintro rfl
      rw [replaces.this] at stored
      cases stored
    rw [replaces.other distinct] at stored
    exact ⟨rep, stored, rfl, replaces.kept other rep distinct stored⟩

theorem Sound.repWrite (sound : Sound lists kinds streams fs) {bytes : Bytes} (unlisted : key ∉ lists)
    (wrote : repWrite fs.store key bytes = .ok store) : Sound lists kinds streams (fs.setStore store) := by
  have reps : RepsReachable store :=
    sound.reps.step (show runRepOp fs.store 0 (.write key bytes) = .ok store from wrote)
  obtain ⟨old, strKey, -, -, -, replaces, -⟩ := sound.invariant.repWrite_replaces wrote
  exact sound.replace reps replaces unlisted

theorem Sound.repContentsClear (sound : Sound lists kinds streams fs) (unlisted : key ∉ lists)
    (cleared : repContentsClear fs.store key = .ok store) :
    Sound lists kinds streams (fs.setStore store) := by
  have reps : RepsReachable store :=
    sound.reps.step (show runRepOp fs.store 0 (.clear key) = .ok store from cleared)
  obtain ⟨old, strKey, -, -, -, -, replaces, -⟩ := sound.invariant.repContentsClear_replaces cleared
  exact sound.replace reps replaces unlisted

theorem Sound.repDeltify (sound : Sound lists kinds streams fs) {target source : Nat}
    (unlisted : target ∉ lists) (ran : repDeltify fs.store depth target source = .ok store) :
    Sound lists kinds streams (fs.setStore store) := by
  have reps : RepsReachable store :=
    sound.reps.step (show runRepOp fs.store depth (.deltify target source) = .ok store from ran)
  obtain ⟨nextRep, ⟨same, grows⟩ | ⟨sourceText, targetText, entry, window, deltified⟩⟩ :=
    sound.invariant.repDeltify_effect ran
  · apply sound.setStore reps nextRep.ge
    intro other _ rep stored
    rw [same] at stored
    exact ⟨rep, stored, rfl, fun strKey member => sound.invariant.grown_kept grows stored member⟩
  · exact sound.replace reps deltified.replaces unlisted

/-- A list is a fulltext already. -/
theorem Sound.repUndeltify (sound : Sound lists kinds streams fs)
    (ran : repUndeltify fs.store depth key = .ok store) : Sound lists kinds streams (fs.setStore store) := by
  by_cases listed : key ∈ lists
  · have same : store = fs.store := by
      rw [Fs.repUndeltify] at ran
      split at ran
      · cases ran
      · next rep read =>
          obtain ⟨entries, -, strKey, kind, -⟩ := (sound.maps key listed).2 rep (readRep_ok read)
          rw [kind] at ran
          exact (Except.ok.inj ran).symm
    rw [same]
    exact sound
  · have reps : RepsReachable store :=
      sound.reps.step (show runRepOp fs.store depth (.undeltify key) = .ok store from ran)
    obtain ⟨-, rfl | ⟨text, strKey, -, -, -, replaces⟩⟩ := sound.invariant.repUndeltify_effect ran
    · exact sound
    · exact sound.replace reps replaces listed

end Reps

section Ids

variable {table : NodesTable NodeRev}

/-- A successor belongs to the same node, also when the table has lost the predecessor. -/
theorem newSuccessorId_family (shaped : ∀ key ∈ table.entries, Shaped key) {id successor : NodeId}
    (idShaped : Shaped id) (chosen : newSuccessorId table id = .ok successor) :
    Shaped successor ∧ successor.headD 0 = id.headD 0 := by
  obtain ⟨front, number, revision, pairs, rfl⟩ := idShaped.exists_last
  have choice := newSuccessorId_choice shaped pairs idShaped
  rw [chosen] at choice
  cases choice with
  | nextRevision free =>
      rw [← nextRevision_append]
      refine ⟨idShaped.nextRevision, ?_⟩
      rw [nextRevision_append]
      cases front <;> rfl
  | firstBranch taken within isLast =>
      have whole : front ++ [number, revision, 1, 1] = front ++ [number, revision] ++ [1, 1] := by simp
      rw [whole]
      refine ⟨idShaped.branch (Branches.cons le_rfl le_rfl Branches.nil), ?_⟩
      cases front <;> rfl
  | @nextBranch earlier branch rest taken within notLater found readable isLast =>
      obtain ⟨origin, branches⟩ := (shaped _ found).of_append pairs
      have whole : front ++ [number, earlier, branch + 1, 1] =
          front ++ [number, earlier] ++ [branch + 1, 1] := by simp
      rw [whole]
      refine ⟨origin.branch (Branches.cons (Nat.le_add_left _ _) le_rfl Branches.nil), ?_⟩
      cases front <;> rfl

/-- A new node has a larger number than all others. -/
theorem newNodeId_family (shaped : ∀ key ∈ table.entries, Shaped key)
    (readable : ∀ key ∈ table.entries, WithinLimit key) {id : NodeId}
    (chosen : newNodeId table = .ok id) :
    Shaped id ∧ ∀ key ∈ table.entries, key.headD 0 < id.headD 0 := by
  obtain ⟨node, revision, rest, rfl, isLast, _⟩ := newNodeId_eq chosen
  refine ⟨⟨node + 1, 1, [], rfl, Branches.nil⟩, fun key used => ?_⟩
  have lastUsed := AList.mem_keys.mpr (last_mem isLast)
  have notBehind := le_last compareNodesKeys_lt isLast _ (AList.mem_keys.mp used)
  have lastWell := (shaped _ lastUsed).wellFormed.mpr (readable _ lastUsed)
  have usedWell := (shaped _ used).wellFormed.mpr (readable _ used)
  rw [← not_lt, position_lt lastWell usedWell] at notBehind
  by_contra larger
  apply notBehind
  obtain ⟨number, first, more, rfl, -⟩ := shaped key used
  have behind : node < number := by simpa using larger
  rw [rank_eq, rank_eq]
  simp [List.cons_lt_cons_iff, behind]

end Ids

section Nodes

variable {lists : Set Nat} {kinds : Nat → NodeKind} {streams : List Trail.Stream} {fs : Filesystem}

theorem Sound.shaped (sound : Sound lists kinds streams fs) : ∀ id ∈ fs.nodes.entries, Shaped id := by
  intro id present
  obtain ⟨node, found⟩ := (fs.mem_entries id).mp present
  exact (sound.nodes id node found).1

theorem Sound.withinLimit (sound : Sound lists kinds streams fs) :
    ∀ id ∈ fs.nodes.entries, WithinLimit id := by
  intro id present
  obtain ⟨node, found⟩ := (fs.mem_entries id).mp present
  exact (sound.nodes id node found).2.1

/-- The number of a new node gets its kind. -/
theorem Sound.createNode (sound : Sound lists kinds streams fs) {id : NodeId} {node : NodeRev}
    (chosen : newNodeId fs.nodes = .ok id) (within : WithinLimit id)
    (fits : Fits lists fs.store.nextRep node) :
    Sound lists (Function.update kinds (id.headD 0) node.kind) streams (fs.putNode id node) := by
  obtain ⟨shaped, others⟩ := newNodeId_family sound.shaped sound.withinLimit chosen
  have before : Sound lists (Function.update kinds (id.headD 0) node.kind) streams fs := by
    refine ⟨sound.reps, sound.maps, ?_, sound.opened⟩
    intro other found stored
    obtain ⟨otherShaped, otherWithin, kind, otherFits⟩ := sound.nodes other found stored
    refine ⟨otherShaped, otherWithin, ?_, otherFits⟩
    rw [kindOf, Function.update_of_ne (others other ((fs.mem_entries other).mpr ⟨found, stored⟩)).ne]
    exact kind
  apply before.putNode shaped within _ fits
  rw [kindOf, Function.update_self]

theorem Sound.putSuccessor (sound : Sound lists kinds streams fs) {oldId id : NodeId}
    {node : NodeRev} (shaped : Shaped oldId) (chosen : newSuccessorId fs.nodes oldId = .ok id)
    (within : WithinLimit id) (kind : node.kind = kindOf kinds oldId)
    (fits : Fits lists fs.store.nextRep node) : Sound lists kinds streams (fs.putNode id node) := by
  obtain ⟨idShaped, same⟩ := newSuccessorId_family sound.shaped shaped chosen
  apply sound.putNode idShaped within _ fits
  rw [kind, kindOf, kindOf, same]

end Nodes

end Subversion.Fs
