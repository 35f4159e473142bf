/-
This file shows how a directory's list of entries is made mutable and written anew.
-/

import Subversion.Fs.RoleSteps

namespace Subversion.Fs

open Delta Framing Transactions

section Reps

variable {store middle next : Store} {key : Nat} {rep : Rep}

/-- A rep keeps its skel in two steps. -/
theorem Replaces.trans_same (first : Replaces store middle key (some rep))
    (second : Replaces middle next key (some rep)) : Replaces store next key (some rep) := by
  refine ⟨?_, first.nextRep.trans second.nextRep, second.inRange, first.nextKey.trans second.nextKey,
    second.freshStrings, ?_, ?_⟩
  · rw [second.reps, first.reps, Function.update_idem]
  · intro other found distinct stored strKey member
    rw [second.kept other found distinct ((first.other distinct).trans stored) strKey member]
    exact first.kept other found distinct stored strKey member
  · intro found isRep strKey member
    rcases first.own found isRep strKey member with ⟨n, same, fresh, small⟩ | mine
    · exact Or.inl ⟨n, same, fresh, small.trans_le second.nextKey⟩
    · exact Or.inr mine

/-- The stored rep was a mutable fulltext, and now it has this text. -/
structure Rewritten (store next : Store) (key : Nat) (rep : Rep) (text : Bytes) : Prop where
  reachable : RepsReachable next
  found : store.reps key = some rep
  mutable : rep.mutable = true
  replaces : Replaces store next key (some rep)
  string : ∃ strKey, rep.kind = .fulltext strKey ∧ next.strings.text strKey = some text

/-- A write behind a clear cannot fail. -/
theorem RepsReachable.clear_write (reachable : RepsReachable store)
    (cleared : repContentsClear store key = .ok middle) (text : Bytes) :
    ∃ next rep, repWrite middle key text = .ok next ∧ Rewritten store next key rep text := by
  have between : RepsReachable middle :=
    reachable.step (show runRepOp store 0 (.clear key) = .ok middle from cleared)
  obtain ⟨rep, strKey, found, mutable, kind, -, first, empty⟩ :=
    reachable.invariant.repContentsClear_replaces cleared
  obtain ⟨next, wrote⟩ : ∃ next, repWrite middle key text = .ok next := by
    simp [repWrite, readRep, first.this, kind]
  obtain ⟨other, otherKey, stored, otherKind, -, second, grown⟩ :=
    between.invariant.repWrite_replaces wrote
  rw [first.this] at stored
  cases stored
  rw [kind] at otherKind
  cases otherKind
  exact ⟨next, rep, wrote, between.step (show runRepOp middle 0 (.write key text) = .ok next from wrote),
    found, mutable, first.trans_same second, strKey, kind, grown [] empty⟩

theorem Rewritten.holds {entries : List Entry}
    (rewritten : Rewritten store next key rep (unparseEntries entries))
    (distinct : DistinctNames entries) : HoldsEntries next rep entries :=
  ⟨distinct, rewritten.string⟩

theorem repContents_positive {depth : Nat} {raw : Bytes}
    (read : repContents store depth key = .ok raw) : depth ≠ 0 := by
  rintro rfl
  rw [repContents] at read
  split at read
  · cases read
  · cases read

end Reps

/-- The list of a directory. Without data, it has no entries. -/
def ListOf (fs : Filesystem) (node : NodeRev) (entries : List Entry) : Prop :=
  (node.dataKey = none ∧ entries = []) ∨
    ∃ key rep, node.dataKey = some key ∧ fs.store.reps key = some rep ∧
      HoldsEntries fs.store rep entries

theorem ListOf.distinct {fs : Filesystem} {node : NodeRev} {entries : List Entry}
    (listed : ListOf fs node entries) : DistinctNames entries := by
  rcases listed with ⟨-, rfl⟩ | ⟨_, _, _, _, holds⟩
  · exact List.nodup_nil
  · exact holds.1

/-- The directory of this id has a mutable rep with these entries. -/
structure OwnsList (fs : Filesystem) (id : NodeId) (node : NodeRev) (key : Nat) (rep : Rep)
    (entries : List Entry) : Prop where
  keyed : fs.node id = some { node with dataKey := some key }
  stored : fs.store.reps key = some rep
  mutable : rep.mutable = true
  holds : HoldsEntries fs.store rep entries

section Lists

variable {lists : Set Nat} {kinds : Nat → NodeKind} {streams : List Trail.Stream} {fs next : Filesystem}
  {depth key : Nat} {id : NodeId} {node : NodeRev}

theorem Sound.rewriteList (sound : Sound lists kinds streams fs) {store : Store} {rep : Rep}
    {entries : List Entry}
    (rewritten : Rewritten fs.store store key rep (unparseEntries entries))
    (distinct : DistinctNames entries) : Sound lists kinds streams (fs.setStore store) := by
  by_cases listed : key ∈ lists
  · refine ⟨rewritten.reachable, ?_, ?_,
      fun stream member => (sound.opened stream member).mono rewritten.replaces.nextRep⟩
    · intro other member
      obtain ⟨small, held⟩ := sound.maps other member
      refine ⟨small.trans_le rewritten.replaces.nextRep, fun found stored => ?_⟩
      rw [Filesystem.store_setStore] at stored
      by_cases same : other = key
      · subst same
        rw [rewritten.replaces.this] at stored
        cases stored
        exact ⟨entries, rewritten.holds distinct⟩
      · rw [rewritten.replaces.other same] at stored
        obtain ⟨old, isOld⟩ := held found stored
        exact ⟨old, isOld.of_kept rfl (rewritten.replaces.kept other found same stored)⟩
    · intro other found stored
      obtain ⟨shaped, within, kind, fits⟩ := sound.nodes other found stored
      exact ⟨shaped, within, kind, fits.mono rewritten.replaces.nextRep⟩
  · exact sound.replace rewritten.reachable rewritten.replaces listed

theorem Trail.mutableDataKey_ok :
    Trail.mutableDataKey depth id node fs = .ok (key, next) ↔
      ∃ store, getMutableRep fs.store depth node.dataKey = .ok (key, store) ∧
        if node.dataKey = some key then next = fs.setStore store
        else isValidNodeRevision { node with dataKey := some key } = true ∧
          next = (fs.setStore store).putNode id { node with dataKey := some key } := by
  simp only [Trail.mutableDataKey, bind_ok, withStore_ok]
  constructor
  · rintro ⟨found, middle, ⟨store, got, rfl⟩, ran⟩
    split at ran
    · next same =>
        obtain ⟨rfl, rfl⟩ := pure_ok.mp ran
        exact ⟨store, got, by rw [if_pos same]⟩
    · next different =>
        simp only [bind_ok, Trail.putNodeRevision_ok, pure_ok] at ran
        obtain ⟨-, -, ⟨valid, rfl⟩, rfl, rfl⟩ := ran
        exact ⟨store, got, by rw [if_neg different]; exact ⟨valid, rfl⟩⟩
  · rintro ⟨store, got, ends⟩
    refine ⟨key, fs.setStore store, ⟨store, got, rfl⟩, ?_⟩
    by_cases same : node.dataKey = some key
    · rw [if_pos same] at ends
      rw [if_pos same, ends]
      exact pure_ok.mpr ⟨rfl, rfl⟩
    · rw [if_neg same] at ends
      rw [if_neg same, bind_ok]
      exact ⟨(), _, Trail.putNodeRevision_ok.mpr ends, pure_ok.mpr ⟨rfl, rfl⟩⟩

theorem Trail.mutableDataKey_reachable (reachable : RepsReachable fs.store)
    (ran : Trail.mutableDataKey depth id node fs = .ok (key, next)) : RepsReachable next.store := by
  obtain ⟨store, got, ends⟩ := Trail.mutableDataKey_ok.mp ran
  have reached : RepsReachable store :=
    reachable.step (show runRepOp fs.store depth (.getMutable node.dataKey) = .ok store by
      rw [runRepOp, got]
      rfl)
  split at ends
  · rw [ends]
    exact reached
  · rw [ends.2]
    exact reached

/-- The list is copied when its rep is immutable. -/
theorem Sound.mutableList (sound : Sound lists kinds streams fs) (found : fs.node id = some node)
    (isDir : node.kind = .dir) (named : node.dataKey ≠ none) (positive : depth ≠ 0)
    (ran : Trail.mutableDataKey depth id node fs = .ok (key, next)) :
    ∃ lists' rep entries, Sound lists' kinds streams next ∧ OwnsList next id node key rep entries ∧
      ListOf fs node entries ∧ ∀ other, other ≠ id → next.node other = fs.node other := by
  obtain ⟨old, isOld⟩ := Option.ne_none_iff_exists'.mp named
  obtain ⟨small, isList⟩ := (sound.fits found).data old isOld
  obtain ⟨-, held⟩ := sound.maps old (isList.mpr isDir)
  obtain ⟨store, got, ends⟩ := Trail.mutableDataKey_ok.mp ran
  have reps : RepsReachable store :=
    sound.reps.step (show runRepOp fs.store depth (.getMutable node.dataKey) = .ok store by
      rw [runRepOp, got]
      rfl)
  rw [isOld] at got ends
  rcases sound.invariant.getMutableRep_replaces got with
    ⟨⟨⟩, rfl, rep, stored, mutable⟩ | ⟨rfl, -, strKey, bytes, replaces, text, -, copies⟩
  · obtain ⟨entries, holds⟩ := held rep stored
    rw [if_pos rfl] at ends
    obtain rfl : next = fs := ends
    exact ⟨lists, rep, entries, sound, ⟨by rw [found, ← isOld], stored, mutable, holds⟩,
      Or.inr ⟨key, rep, isOld, stored, holds⟩, fun _ _ => rfl⟩
  · obtain ⟨⟨rep, stored, -⟩, same⟩ := copies old rfl
    obtain ⟨entries, distinct, oldStr, kind, oldText⟩ := held rep stored
    obtain ⟨less, rfl⟩ := Nat.exists_eq_succ_of_ne_zero positive
    obtain ⟨serves, sized⟩ := fulltext_serves stored kind oldText less
    obtain rfl := same _ serves sized
    have holds : HoldsEntries store (fulltextRep true strKey) entries :=
      ⟨distinct, strKey, rfl, text⟩
    rw [if_neg (by rintro ⟨⟩; exact lt_irrefl _ small)] at ends
    obtain ⟨-, rfl⟩ := ends
    refine ⟨_, fulltextRep true strKey, entries,
      sound.insertList reps replaces holds found isDir, ⟨?_, replaces.this, rfl, holds⟩,
      Or.inr ⟨old, rep, isOld, stored, distinct, oldStr, kind, oldText⟩, ?_⟩
    · rw [Filesystem.node_putNode, if_pos rfl]
    · intro other distinct
      rw [Filesystem.node_putNode, if_neg distinct]
      rfl

/-- A new rep has an empty text until an empty list is written to it. -/
theorem Sound.startList (sound : Sound lists kinds streams fs) (found : fs.node id = some node)
    (isDir : node.kind = .dir) (unnamed : node.dataKey = none) {middle : Filesystem}
    (ran : Trail.mutableDataKey depth id node fs = .ok (key, middle)) :
    ∃ store rep lists', Fs.repWrite middle.store key emptyListText = .ok store ∧
      Sound lists' kinds streams (middle.setStore store) ∧
      OwnsList (middle.setStore store) id node key rep [] ∧
      ∀ other, other ≠ id → middle.node other = fs.node other := by
  obtain ⟨first, got, ends⟩ := Trail.mutableDataKey_ok.mp ran
  have between : RepsReachable first :=
    sound.reps.step (show runRepOp fs.store depth (.getMutable node.dataKey) = .ok first by
      rw [runRepOp, got]
      rfl)
  rw [unnamed] at got ends
  rcases sound.invariant.getMutableRep_replaces got with
    ⟨⟨⟩, -⟩ | ⟨rfl, -, strKey, bytes, replaces, text, empty, -⟩
  rw [if_neg (by rintro ⟨⟩)] at ends
  obtain ⟨-, rfl⟩ := ends
  obtain rfl := empty rfl
  obtain ⟨store, wrote⟩ : ∃ store, Fs.repWrite first fs.store.nextRep emptyListText = .ok store := by
    simp [Fs.repWrite, readRep, replaces.this, fulltextRep]
  obtain ⟨rep, repStr, stored, kind, -, second, grown⟩ := between.invariant.repWrite_replaces wrote
  rw [replaces.this] at stored
  cases stored
  cases kind
  have holds : HoldsEntries store (fulltextRep true strKey) [] :=
    ⟨List.nodup_nil, strKey, rfl, grown [] text⟩
  refine ⟨store, fulltextRep true strKey, insert fs.store.nextRep lists, wrote,
    sound.insertList (between.step (show runRepOp first 0 (.write _ emptyListText) = .ok store from
      wrote)) (replaces.trans_same second) holds found isDir, ⟨?_, second.this, rfl, holds⟩, ?_⟩
  · rw [Filesystem.node_setStore, Filesystem.node_putNode, if_pos rfl]
  · intro other distinct
    rw [Filesystem.node_putNode, if_neg distinct]
    rfl

theorem Trail.streamWrite_ok {bytes : Bytes} {store : Store} {value : Unit}
    (wrote : Fs.repWrite fs.store key bytes = .ok store) :
    Trail.streamWrite key bytes fs = .ok (value, next) ↔ next = fs.setStore store := by
  rw [Trail.streamWrite, wrote]
  constructor
  · rintro ⟨⟩
    rfl
  · rintro rfl
    rfl

/-- The list that was read is changed and written anew. -/
theorem Trail.rewriteEntries_ok {change : List Entry → List Entry} {value : Unit}
    (reachable : RepsReachable fs.store)
    (ran : Trail.rewriteEntries depth key change fs = .ok (value, next)) :
    ∃ raw entries store rep, repContents fs.store depth key = .ok raw ∧
      parseEntries raw = .ok entries ∧
      Rewritten fs.store store key rep (unparseEntries (change entries)) ∧ next = fs.setStore store := by
  simp only [Trail.rewriteEntries, bind_ok, readStore_ok, changeStore_ok] at ran
  obtain ⟨entries, _, ⟨read, rfl⟩, -, _, ⟨middle, cleared, rfl⟩, ran⟩ := ran
  split at read
  · cases read
  next raw contents =>
    obtain ⟨store, rep, wrote, rewritten⟩ :=
      reachable.clear_write cleared (unparseEntries (change entries))
    rw [Trail.streamWrite_ok wrote] at ran
    exact ⟨raw, entries, store, rep, contents, read, rewritten, ran⟩

/-- The owned list is replaced. -/
theorem OwnsList.rewrite {rep : Rep} {entries after : List Entry}
    (owns : OwnsList fs id node key rep entries) {store : Store} {found : Rep}
    (rewritten : Rewritten fs.store store key found (unparseEntries after))
    (distinct : DistinctNames after) : OwnsList (fs.setStore store) id node key rep after := by
  obtain rfl : rep = found := Option.some.inj (owns.stored.symm.trans rewritten.found)
  exact ⟨owns.keyed, rewritten.replaces.this, owns.mutable, rewritten.holds distinct⟩

theorem Trail.rewriteEntries_owned {lists : Set Nat} (sound : Sound lists kinds streams fs)
    {rep : Rep} {entries : List Entry} (owns : OwnsList fs id node key rep entries)
    {change : List Entry → List Entry} {value : Unit}
    (ran : Trail.rewriteEntries depth key change fs = .ok (value, next))
    (distinct : DistinctNames (change entries)) :
    Sound lists kinds streams next ∧ OwnsList next id node key rep (change entries) ∧
      ∀ other, next.node other = fs.node other := by
  obtain ⟨raw, read, store, found, contents, parsed, rewritten, rfl⟩ :=
    Trail.rewriteEntries_ok sound.reps ran
  have same := owns.holds.parse owns.stored contents
  rw [parsed] at same
  cases same
  exact ⟨sound.rewriteList rewritten distinct, owns.rewrite rewritten distinct, fun _ => rfl⟩

/-- The directory has the entries as before, but for the one that is set. -/
theorem Sound.setEntryUnchecked (sound : Sound lists kinds streams fs) (found : fs.node id = some node)
    (isDir : node.kind = .dir) {name : Bytes} {child : NodeId} {value : Unit}
    (ran : Trail.setEntryUnchecked depth id name child fs = .ok (value, next)) :
    ∃ lists' key rep entries, Sound lists' kinds streams next ∧ ListOf fs node entries ∧
      OwnsList next id node key rep (tweakEntry entries name (unparseId child)) ∧
      ∀ other, other ≠ id → next.node other = fs.node other := by
  simp only [Trail.setEntryUnchecked, bind_ok, Trail.getNodeRevision_ok] at ran
  obtain ⟨_, _, ⟨again, rfl⟩, key, middle, keyed, ran⟩ := ran
  rw [found] at again
  cases again
  split at ran
  · next unnamed =>
      obtain ⟨store, rep, lists', wrote, started, owns, others⟩ :=
        sound.startList found isDir unnamed keyed
      rw [bind_ok] at ran
      obtain ⟨_, last, written, ran⟩ := ran
      rw [Trail.streamWrite_ok wrote] at written
      subst written
      obtain ⟨after, owned, same⟩ := Trail.rewriteEntries_owned started owns ran
        (owns.holds.1.tweakEntry name _)
      exact ⟨lists', key, rep, [], after, Or.inl ⟨unnamed, rfl⟩, owned,
        fun other distinct => (same other).trans (others other distinct)⟩
  · next named =>
      obtain ⟨raw, -, -, -, contents, -⟩ :=
        Trail.rewriteEntries_ok (Trail.mutableDataKey_reachable sound.reps keyed) ran
      have positive := repContents_positive contents
      obtain ⟨lists', rep, entries, between, owns, listed, others⟩ :=
        sound.mutableList found isDir named positive keyed
      obtain ⟨after, owned, same⟩ := Trail.rewriteEntries_owned between owns ran
        (owns.holds.1.tweakEntry name _)
      exact ⟨lists', key, rep, entries, after, listed, owned,
        fun other distinct => (same other).trans (others other distinct)⟩

end Lists

end Subversion.Fs
