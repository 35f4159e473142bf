/-
This file states which representations hold lists of entries, and how single changes keep them.
-/

import Subversion.Fs.Deltification
import Subversion.Fs.EntryLists
import Subversion.Fs.Immutability
import Subversion.Fs.Trails

namespace Subversion.Fs

open Delta Framing

/-- The rep is a fulltext of a list in which no name occurs twice. -/
def HoldsEntries (store : Store) (rep : Rep) (entries : List Entry) : Prop :=
  DistinctNames entries ∧ ∃ strKey, rep.kind = .fulltext strKey ∧
    store.strings.text strKey = some (unparseEntries entries)

/-- The key was handed out, and not for a list of entries. -/
def Plain (lists : Set Nat) (bound key : Nat) : Prop := key < bound ∧ key ∉ lists

/-- The revisions of a node and its branches share their first number, and with it their kind. -/
def kindOf (kinds : Nat → NodeKind) (id : NodeId) : NodeKind := kinds (id.headD 0)

/-- Only the data of directories are lists of entries. -/
structure Fits (lists : Set Nat) (bound : Nat) (node : NodeRev) : Prop where
  prop : ∀ key, node.propKey = some key → Plain lists bound key
  edit : ∀ key, node.editKey = some key → node.kind = .file ∧ Plain lists bound key
  data : ∀ key, node.dataKey = some key → key < bound ∧ (key ∈ lists ↔ node.kind = .dir)

/-- Each list is a map, and no rep is used in two roles. -/
structure Sound (lists : Set Nat) (kinds : Nat → NodeKind) (streams : List Trail.Stream)
    (fs : Filesystem) : Prop where
  reps : RepsReachable fs.store
  maps : ∀ key ∈ lists, key < fs.store.nextRep ∧
    ∀ rep, fs.store.reps key = some rep → ∃ entries, HoldsEntries fs.store rep entries
  nodes : ∀ id node, fs.node id = some node → Shaped id ∧ WithinLimit id ∧
    node.kind = kindOf kinds id ∧ Fits lists fs.store.nextRep node
  opened : ∀ stream ∈ streams, Plain lists fs.store.nextRep stream.key

/-- The lists differ from state to state, the kinds of nodes only when a node is made. -/
def SoundFor (kinds : Nat → NodeKind) (streams : List Trail.Stream) (fs : Filesystem) : Prop :=
  ∃ lists, Sound lists kinds streams fs

section Monotone

variable {lists : Set Nat} {bound larger : Nat} {node : NodeRev}

theorem Plain.mono {key : Nat} (plain : Plain lists bound key) (le : bound ≤ larger) :
    Plain lists larger key := ⟨plain.1.trans_le le, plain.2⟩

/-- A new list has a key that was not handed out before. -/
theorem Plain.insert {key : Nat} (plain : Plain lists bound key) (less : bound < larger) :
    Plain (insert bound lists) larger key := by
  refine ⟨plain.1.trans less, ?_⟩
  rw [Set.mem_insert_iff]
  rintro (rfl | member)
  · exact lt_irrefl _ plain.1
  · exact plain.2 member

theorem Fits.mono (fits : Fits lists bound node) (le : bound ≤ larger) : Fits lists larger node :=
  ⟨fun key isKey => (fits.prop key isKey).mono le,
    fun key isKey => ⟨(fits.edit key isKey).1, (fits.edit key isKey).2.mono le⟩,
    fun key isKey => ⟨(fits.data key isKey).1.trans_le le, (fits.data key isKey).2⟩⟩

theorem Fits.insert (fits : Fits lists bound node) (less : bound < larger) :
    Fits (insert bound lists) larger node := by
  refine ⟨fun key isKey => (fits.prop key isKey).insert less,
    fun key isKey => ⟨(fits.edit key isKey).1, (fits.edit key isKey).2.insert less⟩,
    fun key isKey => ?_⟩
  obtain ⟨small, isList⟩ := fits.data key isKey
  refine ⟨small.trans less, ?_⟩
  rw [Set.mem_insert_iff, ← isList]
  constructor
  · rintro (rfl | member)
    · exact absurd small (lt_irrefl _)
    · exact member
  · exact Or.inr

end Monotone

section Lists

variable {store next : Store} {rep : Rep} {entries : List Entry}

theorem HoldsEntries.of_kept (holds : HoldsEntries store rep entries) {other : Rep}
    (kind : other.kind = rep.kind) (kept : ∀ strKey ∈ rep.kind.strKeys,
      next.strings.records strKey = store.strings.records strKey) : HoldsEntries next other entries := by
  obtain ⟨distinct, strKey, isFulltext, text⟩ := holds
  refine ⟨distinct, strKey, kind.trans isFulltext, ?_⟩
  rw [StringsTable.text, kept strKey (by rw [isFulltext]; exact List.mem_singleton_self _)]
  exact text

theorem HoldsEntries.unique {other : List Entry} (one : HoldsEntries store rep entries)
    (two : HoldsEntries store rep other) : entries = other := by
  obtain ⟨-, strKey, kind, text⟩ := one
  obtain ⟨-, strKey', kind', text'⟩ := two
  rw [kind] at kind'
  cases kind'
  rw [text] at text'
  exact unparseEntries_injective (Option.some.inj text')

/-- A list that can be read is the one that is held. -/
theorem HoldsEntries.parse (holds : HoldsEntries store rep entries) {key depth : Nat} {raw : Bytes}
    (found : store.reps key = some rep) (read : repContents store depth key = .ok raw) :
    parseEntries raw = .ok entries := by
  obtain ⟨-, strKey, kind, text⟩ := holds
  rw [repContents, repContentsSize_fulltext found kind, stringSize_eq text] at read
  dsimp only at read
  cases depth with
  | zero => cases read
  | succ depth =>
      rw [repReadRange_fulltext found kind, stringRead_eq text] at read
      simp only [List.drop_zero, List.take_length, ne_eq, not_true_eq_false, if_false] at read
      rw [← Except.ok.inj read]
      exact parseEntries_unparseEntries entries

/-- With any depth but zero, the list can be read. -/
theorem HoldsEntries.contents (holds : HoldsEntries store rep entries) {key : Nat}
    (found : store.reps key = some rep) (depth : Nat) :
    repContents store (depth + 1) key = .ok (unparseEntries entries) := by
  obtain ⟨-, strKey, kind, text⟩ := holds
  rw [repContents, repContentsSize_fulltext found kind, stringSize_eq text]
  dsimp only
  rw [repReadRange_fulltext found kind, stringRead_eq text]
  simp

end Lists

section Steps

variable {lists : Set Nat} {kinds : Nat → NodeKind} {streams : List Trail.Stream} {fs : Filesystem}

theorem Sound.invariant (sound : Sound lists kinds streams fs) : RepsInvariant fs.store :=
  sound.reps.invariant

theorem Sound.fits (sound : Sound lists kinds streams fs) {id : NodeId} {node : NodeRev}
    (found : fs.node id = some node) : Fits lists fs.store.nextRep node :=
  (sound.nodes id node found).2.2.2

theorem Sound.new_unlisted (sound : Sound lists kinds streams fs) : fs.store.nextRep ∉ lists :=
  fun member => lt_irrefl _ (sound.maps _ member).1

/-- Transactions and revisions play no part. -/
theorem Sound.congr (sound : Sound lists kinds streams fs) {next : Filesystem}
    (nodes : next.nodes = fs.nodes) (store : next.store = fs.store) :
    Sound lists kinds streams next := by
  obtain ⟨reps, holds, fit, opened⟩ := sound
  refine ⟨store ▸ reps, store ▸ holds, ?_, store ▸ opened⟩
  rw [store]
  intro id node found
  rw [Filesystem.node, nodes] at found
  exact fit id node found

/-- The lists are left alone. -/
theorem Sound.setStore (sound : Sound lists kinds streams fs) {store : Store}
    (reps : RepsReachable store) (grows : fs.store.nextRep ≤ store.nextRep)
    (kept : ∀ key ∈ lists, ∀ rep, store.reps key = some rep → ∃ old,
      fs.store.reps key = some old ∧ rep.kind = old.kind ∧ ∀ strKey ∈ old.kind.strKeys,
        store.strings.records strKey = fs.store.strings.records strKey) :
    Sound lists kinds streams (fs.setStore store) := by
  refine ⟨reps, ?_, ?_, fun stream member => (sound.opened stream member).mono grows⟩
  · intro key member
    obtain ⟨small, holds⟩ := sound.maps key member
    refine ⟨small.trans_le grows, fun rep found => ?_⟩
    obtain ⟨old, stored, kind, records⟩ := kept key member rep found
    obtain ⟨entries, held⟩ := holds old stored
    exact ⟨entries, held.of_kept kind records⟩
  · intro id node found
    obtain ⟨shaped, within, kind, fits⟩ := sound.nodes id node found
    exact ⟨shaped, within, kind, fits.mono grows⟩

theorem Sound.replace (sound : Sound lists kinds streams fs) {store : Store}
    (reps : RepsReachable store) {key : Nat} {rep : Option Rep}
    (replaces : Replaces fs.store store key rep) (unlisted : key ∉ lists) :
    Sound lists kinds streams (fs.setStore store) := by
  apply sound.setStore reps replaces.nextRep
  intro other member found stored
  have distinct : other ≠ key := by
    rintro rfl
    exact unlisted member
  rw [replaces.other distinct] at stored
  exact ⟨found, stored, rfl, replaces.kept other found distinct stored⟩

/-- A new node, or a changed one. -/
theorem Sound.putNode (sound : Sound lists kinds streams fs) {id : NodeId} {node : NodeRev}
    (shaped : Shaped id) (within : WithinLimit id) (kind : node.kind = kindOf kinds id)
    (fits : Fits lists fs.store.nextRep node) : Sound lists kinds streams (fs.putNode id node) := by
  refine ⟨sound.reps, sound.maps, ?_, sound.opened⟩
  intro other found stored
  rw [Filesystem.node_putNode] at stored
  split at stored
  · next same =>
      cases stored
      subst same
      exact ⟨shaped, within, kind, fits⟩
  · exact sound.nodes other found stored

/-- A node of the table is changed. -/
theorem Sound.changeNode (sound : Sound lists kinds streams fs) {id : NodeId} {node : NodeRev}
    (new : NodeRev) (found : fs.node id = some node) (kind : new.kind = node.kind)
    (fits : Fits lists fs.store.nextRep new) : Sound lists kinds streams (fs.putNode id new) := by
  obtain ⟨shaped, within, isKind, -⟩ := sound.nodes id node found
  exact sound.putNode shaped within (kind.trans isKind) fits

theorem Sound.eraseNode (sound : Sound lists kinds streams fs) (id : NodeId) :
    Sound lists kinds streams (fs.eraseNode id) := by
  refine ⟨sound.reps, sound.maps, ?_, sound.opened⟩
  intro other found stored
  rw [Filesystem.node_eraseNode] at stored
  split at stored
  · cases stored
  · exact sound.nodes other found stored

/-- A directory gets a new rep with a list in it. -/
theorem Sound.insertList (sound : Sound lists kinds streams fs) {store : Store}
    (reps : RepsReachable store) {rep : Rep} {entries : List Entry}
    (replaces : Replaces fs.store store fs.store.nextRep (some rep))
    (holds : HoldsEntries store rep entries) {id : NodeId} {node : NodeRev}
    (found : fs.node id = some node) (isDir : node.kind = .dir) :
    Sound (insert fs.store.nextRep lists) kinds streams
      ((fs.setStore store).putNode id { node with dataKey := some fs.store.nextRep }) := by
  have less : fs.store.nextRep < store.nextRep := replaces.inRange (by simp)
  obtain ⟨shaped, within, isKind, fits⟩ := sound.nodes id node found
  have before : Sound (insert fs.store.nextRep lists) kinds streams (fs.setStore store) := by
    refine ⟨reps, ?_, ?_, fun stream member => (sound.opened stream member).insert less⟩
    · intro key member
      rcases Set.mem_insert_iff.mp member with rfl | listed
      · refine ⟨less, fun other stored => ?_⟩
        rw [Filesystem.store_setStore, replaces.this] at stored
        cases stored
        exact ⟨entries, holds⟩
      · obtain ⟨small, held⟩ := sound.maps key listed
        refine ⟨small.trans less, fun other stored => ?_⟩
        rw [Filesystem.store_setStore, replaces.other small.ne] at stored
        obtain ⟨old, isOld⟩ := held other stored
        exact ⟨old, isOld.of_kept rfl (replaces.kept key other small.ne stored)⟩
    · intro other found stored
      obtain ⟨shaped, within, isKind, fits⟩ := sound.nodes other found stored
      exact ⟨shaped, within, isKind, fits.insert less⟩
  have fits' := fits.insert less
  refine before.putNode shaped within isKind ⟨fits'.prop, fits'.edit, ?_⟩
  rintro _ ⟨⟩
  exact ⟨less, iff_of_true (Set.mem_insert _ _) isDir⟩

end Steps

end Subversion.Fs
