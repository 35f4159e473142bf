/-
This file shows that the entries of a mutable directory are a finite map under any changes of it.
-/

import Subversion.Fs.RoleRuns

namespace Subversion.Fs

open Delta Transactions

/-- Nodes and reps are only lost. What is left of the reps keeps its strings, and a lost node takes
its mutable data with it. -/
structure Shrinks (fs next : Filesystem) : Prop where
  nodes : ∀ id, next.node id = fs.node id ∨ next.node id = none
  reps : ∀ key rep, next.store.reps key = some rep → fs.store.reps key = some rep ∧
    ∀ strKey ∈ rep.kind.strKeys, next.store.strings.records strKey = fs.store.strings.records strKey
  data : ∀ id node key rep, fs.node id = some node → next.node id = none → node.dataKey = some key →
    next.store.reps key = some rep → rep.mutable = false

theorem Shrinks.refl (fs : Filesystem) : Shrinks fs fs := by
  refine ⟨fun _ => Or.inl rfl, fun _ _ stored => ⟨stored, fun _ _ => rfl⟩, ?_⟩
  intro id node key rep found lost
  rw [found] at lost
  cases lost

theorem Shrinks.trans {fs middle next : Filesystem} (first : Shrinks fs middle)
    (second : Shrinks middle next) : Shrinks fs next := by
  refine ⟨?_, ?_, ?_⟩
  · intro id
    rcases second.nodes id with same | lost
    · rw [same]
      exact first.nodes id
    · exact Or.inr lost
  · intro key rep stored
    obtain ⟨between, kept⟩ := second.reps key rep stored
    obtain ⟨before, keptBefore⟩ := first.reps key rep between
    exact ⟨before, fun strKey member => (kept strKey member).trans (keptBefore strKey member)⟩
  · intro id node key rep found lost isKey stored
    rcases first.nodes id with same | lostBefore
    · exact second.data id node key rep (same.trans found) lost isKey stored
    · exact first.data id node key rep found lostBefore isKey (second.reps key rep stored).1

/-- A program that only loses nodes and reps. -/
def Shrinking {A : Type} (program : Trail A) : Prop :=
  ∀ fs, RepsReachable fs.store → ∀ value next, program fs = .ok (value, next) →
    RepsReachable next.store ∧ Shrinks fs next

section Deletion

theorem Reads.shrinking {A : Type} {program : Trail A} (reads : Reads program) : Shrinking program := by
  intro fs reps value next ran
  rw [reads fs value next ran]
  exact ⟨reps, Shrinks.refl fs⟩

theorem Shrinking.bind {A B : Type} {first : Trail A} {next : A → Trail B} (shrinking : Shrinking first)
    (follows : ∀ value, Shrinking (next value)) : Shrinking (first >>= next) := by
  intro fs reps value after ran
  obtain ⟨found, middle, ranFirst, ranNext⟩ := bind_ok.mp ran
  obtain ⟨between, one⟩ := shrinking fs reps found middle ranFirst
  obtain ⟨last, two⟩ := follows found middle between value after ranNext
  exact ⟨last, one.trans two⟩

theorem shrinking_forM {A : Type} {program : A → Trail PUnit}
    (shrinking : ∀ element, Shrinking (program element)) (elements : List A) :
    Shrinking (elements.forM program) := by
  induction elements with
  | nil => exact Reads.shrinking (reads_pure _)
  | cons first rest ih => exact (shrinking first).bind fun _ => ih

/-- A rep that is left is immutable. -/
theorem shrinking_deleteRepOf (key : Option Nat) : Shrinking (Trail.deleteRepOf key) ∧
    ∀ fs, RepsReachable fs.store → ∀ value next, Trail.deleteRepOf key fs = .ok (value, next) →
      next.nodes = fs.nodes ∧
        ∀ own rep, key = some own → next.store.reps own = some rep → rep.mutable = false := by
  cases key with
  | none =>
      refine ⟨Reads.shrinking (reads_pure _), fun fs _ value next ran => ?_⟩
      rw [(pure_ok.mp ran).2]
      exact ⟨rfl, by simp⟩
  | some key =>
      have spec : ∀ fs, RepsReachable fs.store → ∀ value next,
          Trail.deleteRepOf (some key) fs = .ok (value, next) →
            (RepsReachable next.store ∧ Shrinks fs next) ∧ next.nodes = fs.nodes ∧
              ∀ own rep, some key = some own → next.store.reps own = some rep →
                rep.mutable = false := by
        intro fs reps value next ran
        obtain ⟨store, deleted, rfl⟩ := changeStore_ok.mp ran
        have reached : RepsReachable store :=
          reps.step (show runRepOp fs.store 0 (.deleteIfMutable key) = .ok store from deleted)
        obtain ⟨old, found, -, ⟨flag, rfl⟩ | ⟨-, replaces⟩⟩ :=
          reps.invariant.deleteRepIfMutable_replaces deleted
        · refine ⟨⟨reached, Shrinks.refl fs⟩, rfl, ?_⟩
          rintro _ rep ⟨⟩ stored
          rw [Filesystem.store_setStore, found] at stored
          cases stored
          exact flag
        · refine ⟨⟨reached, fun _ => Or.inl rfl, ?_, ?_⟩, rfl, ?_⟩
          · intro other rep stored
            have distinct : other ≠ key := by
              rintro rfl
              rw [Filesystem.store_setStore, replaces.this] at stored
              cases stored
            rw [Filesystem.store_setStore, replaces.other distinct] at stored
            exact ⟨stored, replaces.kept other rep distinct stored⟩
          · intro id node other rep present lost
            rw [Filesystem.node_setStore, present] at lost
            cases lost
          · rintro _ rep ⟨⟩ stored
            rw [Filesystem.store_setStore, replaces.this] at stored
            cases stored
      exact ⟨fun fs reps value next ran => (spec fs reps value next ran).1,
        fun fs reps value next ran => (spec fs reps value next ran).2⟩

/-- The reps of a node are deleted before the node. -/
theorem deleteNode_shrinks {fs next : Filesystem} (reps : RepsReachable fs.store) {id : NodeId}
    {node : NodeRev} (same : fs.node id = none ∨ fs.node id = some node) {value : Unit}
    (ran : (do
      Trail.deleteRepOf node.propKey
      Trail.deleteRepOf node.dataKey
      Trail.deleteRepOf node.editKey
      Trail.deleteNodeRevision id : Trail Unit) fs = .ok (value, next)) :
    RepsReachable next.store ∧ Shrinks fs next := by
  simp only [bind_ok, Trail.deleteNodeRevision_ok] at ran
  obtain ⟨_, first, ranProp, _, second, ranData, _, third, ranEdit, -, rfl⟩ := ran
  obtain ⟨propSpec, -⟩ := shrinking_deleteRepOf node.propKey
  obtain ⟨dataSpec, gone⟩ := shrinking_deleteRepOf node.dataKey
  obtain ⟨editSpec, -⟩ := shrinking_deleteRepOf node.editKey
  obtain ⟨repsFirst, one⟩ := propSpec fs reps _ first ranProp
  obtain ⟨repsSecond, two⟩ := dataSpec first repsFirst _ second ranData
  obtain ⟨-, gone⟩ := gone first repsFirst _ second ranData
  obtain ⟨repsThird, three⟩ := editSpec second repsSecond _ third ranEdit
  have before : Shrinks fs third := (one.trans two).trans three
  refine ⟨repsThird, before.trans ⟨?_, fun key rep stored => ⟨stored, fun _ _ => rfl⟩, ?_⟩⟩
  · intro other
    rw [Filesystem.node_eraseNode]
    split
    · exact Or.inr rfl
    · exact Or.inl rfl
  · intro other found key rep stored lost isKey left
    rw [Filesystem.node_eraseNode] at lost
    split at lost
    · next isId =>
        subst isId
        rcases before.nodes other with kept | absent
        · rw [stored] at kept
          rcases same with missing | present
          · rw [missing] at kept
            cases kept
          · rw [present] at kept
            cases kept
            exact gone key rep isKey (three.reps key rep left).1
        · rw [stored] at absent
          cases absent
    · rw [stored] at lost
      cases lost

theorem shrinking_deleteIfMutable (depth fuel : Nat) (id : NodeId) :
    Shrinking (Trail.deleteIfMutable depth fuel id) := by
  induction fuel generalizing id with
  | zero => exact Reads.shrinking (Trail.reads_fail _)
  | succ fuel ih =>
      intro fs reps value next ran
      rw [Trail.deleteIfMutable, bind_ok] at ran
      obtain ⟨node, _, got, rest⟩ := ran
      obtain ⟨found, rfl⟩ := Trail.getNodeRevision_ok.mp got
      split at rest
      · rw [(pure_ok.mp rest).2]
        exact ⟨reps, Shrinks.refl _⟩
      · split at rest
        · obtain ⟨entries, _, listing, more⟩ := bind_ok.mp rest
          obtain rfl := Trail.reads_dirEntriesSkel depth id _ _ _ listing
          obtain ⟨_, middle, children, last⟩ := bind_ok.mp more
          obtain ⟨between, one⟩ := shrinking_forM
            (fun entry => (Reads.shrinking (Trail.reads_readStore _)).bind ih) entries _ reps _ _ children
          have same : middle.node id = none ∨ middle.node id = some node := by
            rw [← found]
            exact (one.nodes id).symm
          obtain ⟨after, two⟩ := deleteNode_shrinks between same last
          exact ⟨after, one.trans two⟩
        · exact deleteNode_shrinks reps (Or.inr found) rest

end Deletion

section Lists

variable {lists : Set Nat} {kinds : Nat → NodeKind} {streams : List Trail.Stream} {fs next : Filesystem}
  {depth key : Nat} {id : NodeId} {node : NodeRev} {entries : List Entry}

/-- As long as its rep is there, so are the directory and its list. -/
theorem OwnsList.shrinks {rep other : Rep} (owns : OwnsList fs id node key rep entries)
    (shrinks : Shrinks fs next) (stored : next.store.reps key = some other) :
    OwnsList next id node key rep entries := by
  obtain ⟨before, kept⟩ := shrinks.reps key other stored
  obtain rfl : rep = other := Option.some.inj (owns.stored.symm.trans before)
  refine ⟨?_, stored, owns.mutable, owns.holds.of_kept rfl kept⟩
  rcases shrinks.nodes id with same | lost
  · rw [same]
    exact owns.keyed
  · have flag := shrinks.data id _ key rep owns.keyed lost rfl stored
    rw [owns.mutable] at flag
    cases flag

/-- The directory has the entries as before, but for the one that is deleted. -/
theorem Sound.deleteEntry (sound : Sound lists kinds streams fs) (found : fs.node id = some node)
    {name : Bytes} {requireEmpty : Bool} {value : Unit}
    (ran : Trail.deleteEntry depth id name requireEmpty fs = .ok (value, next)) :
    ∃ key rep entries, ListOf fs node entries ∧
      OwnsList next id node key rep (loseEntry entries name) := by
  obtain ⟨node', key, middle, raw, entries, child, deleted, again, isDir, -, named, keyed, contents, read,
    ranDelete, last⟩ := Trail.deleteEntry_ok ran
  rw [found] at again
  cases again
  obtain ⟨lists', rep, held, between, owns, listed, -⟩ :=
    sound.mutableList found isDir named (repContents_positive contents) keyed
  have same := owns.holds.parse owns.stored contents
  rw [read] at same
  cases same
  obtain ⟨reps, shrinks⟩ := shrinking_deleteIfMutable depth depth child middle between.reps _ _ ranDelete
  simp only [bind_ok, changeStore_ok] at last
  obtain ⟨-, _, ⟨empty, cleared, rfl⟩, store, wrote, rfl⟩ := last
  obtain ⟨other, found', again, rewritten⟩ := reps.clear_write cleared (unparseEntries (loseEntry entries name))
  cases again.symm.trans wrote
  have left := owns.shrinks shrinks rewritten.found
  exact ⟨key, rep, entries, listed, left.rewrite rewritten (owns.holds.1.loseEntry name)⟩

theorem ListOf.unique {other : List Entry} (one : ListOf fs node entries) (two : ListOf fs node other) :
    entries = other := by
  rcases one with ⟨unnamed, rfl⟩ | ⟨key, rep, named, stored, holds⟩
  · rcases two with ⟨-, rfl⟩ | ⟨key, -, named, -⟩
    · rfl
    · rw [unnamed] at named
      cases named
  · rcases two with ⟨unnamed, -⟩ | ⟨key', rep', named', stored', holds'⟩
    · rw [unnamed] at named
      cases named
    · rw [named] at named'
      cases named'
      rw [stored] at stored'
      cases stored'
      exact holds.unique holds'

theorem OwnsList.listOf {rep : Rep} (owns : OwnsList fs id node key rep entries) :
    ListOf fs { node with dataKey := some key } entries :=
  Or.inr ⟨key, rep, rfl, owns.stored, owns.holds⟩

/-- Only a data key without a rep keeps a directory from having a list. -/
theorem Sound.listOf (sound : Sound lists kinds streams fs) (found : fs.node id = some node)
    (isDir : node.kind = .dir) :
    (∃ entries, ListOf fs node entries) ∨ ∃ key, node.dataKey = some key ∧ fs.store.reps key = none := by
  cases named : node.dataKey with
  | none => exact Or.inl ⟨[], Or.inl ⟨named, rfl⟩⟩
  | some key =>
      obtain ⟨-, isList⟩ := (sound.fits found).data key named
      cases stored : fs.store.reps key with
      | none => exact Or.inr ⟨key, rfl, stored⟩
      | some rep =>
          obtain ⟨entries, holds⟩ := (sound.maps key (isList.mpr isDir)).2 rep stored
          exact Or.inl ⟨entries, Or.inr ⟨key, rep, named, stored, holds⟩⟩

/-- The entries of the directory are read, however deep the recursion may go. -/
def DirReads (fs : Filesystem) (id : NodeId) (entries : List Entry) : Prop :=
  ∀ depth, Trail.dirEntriesSkel (depth + 1) id fs = .ok (entries, fs)

theorem ListOf.reads (listed : ListOf fs node entries) (found : fs.node id = some node)
    (isDir : node.kind = .dir) : DirReads fs id entries := by
  intro depth
  simp only [Trail.dirEntriesSkel, bind_ok, Trail.getNodeRevision_ok, ensure_ok]
  refine ⟨node, fs, ⟨found, rfl⟩, (), fs, ⟨isDir, rfl⟩, ?_⟩
  rw [Trail.getDirEntries, isDir]
  rcases listed with ⟨unnamed, rfl⟩ | ⟨key, rep, named, stored, holds⟩
  · rw [unnamed]
    exact pure_ok.mpr ⟨rfl, rfl⟩
  · rw [named]
    apply readStore_ok.mpr
    rw [holds.contents stored depth]
    exact ⟨parseEntries_unparseEntries entries, rfl⟩

end Lists

/-- The changes of a directory. -/
inductive DirStep where
  | set (name : Bytes) (id : NodeId)
  | delete (name : Bytes) (requireEmpty : Bool)

def DirStep.run (depth : Nat) (parent : NodeId) : DirStep → Trail Unit
  | .set name id => Trail.setEntryUnchecked depth parent name id
  | .delete name requireEmpty => Trail.deleteEntry depth parent name requireEmpty

def DirStep.change (map : EntryMap) : DirStep → EntryMap
  | .set name id => Function.update map name (some (unparseId id))
  | .delete name _ => Function.update map name none

/-- A directory that is changed, and the map that it should be. A change that fails is rolled back. -/
def DirStep.take (parent : NodeId) (state : Filesystem × EntryMap) (step : Nat × DirStep) :
    Filesystem × EntryMap :=
  match step.2.run step.1 parent state.1 with
  | .ok (_, next) => (next, step.2.change state.2)
  | .error _ => state

/-- The directory of this id can be changed, and its entries are this map. -/
def Mapped (parent : NodeId) (state : Filesystem × EntryMap) : Prop :=
  ∃ kinds streams node entries, SoundFor kinds streams state.1 ∧ state.1.node parent = some node ∧
    node.kind = .dir ∧ node.rev = none ∧ ListOf state.1 node entries ∧ findDirEntry entries = state.2

section Steps

variable {kinds : Nat → NodeKind} {streams : List Trail.Stream} {fs next : Filesystem}
  {parent : NodeId} {node : NodeRev}

/-- A change that succeeds has found a list. -/
theorem DirStep.run_ok (holds : SoundFor kinds streams fs) (found : fs.node parent = some node)
    (isDir : node.kind = .dir) (step : DirStep) (depth : Nat) {value : Unit}
    (ran : step.run depth parent fs = .ok (value, next)) :
    ∃ entries key rep after, ListOf fs node entries ∧ SoundFor kinds streams next ∧
      OwnsList next parent node key rep after ∧
      findDirEntry after = step.change (findDirEntry entries) := by
  have kept := holds
  obtain ⟨lists, sound⟩ := holds
  cases step with
  | set name id =>
      obtain ⟨lists', key, rep, entries, after, listed, owns, -⟩ :=
        sound.setEntryUnchecked found isDir ran
      exact ⟨entries, key, rep, _, listed, ⟨lists', after⟩, owns, findDirEntry_tweakEntry entries name _⟩
  | delete name requireEmpty =>
      obtain ⟨key, rep, entries, listed, owns⟩ := sound.deleteEntry found ran
      exact ⟨entries, key, rep, _, listed,
        Trail.keeps_deleteEntry depth parent name requireEmpty _ kept _ _ ran, owns,
        listed.distinct.findDirEntry_loseEntry name⟩

theorem Mapped.take {state : Filesystem × EntryMap} (mapped : Mapped parent state)
    (step : Nat × DirStep) : Mapped parent (DirStep.take parent state step) := by
  rw [DirStep.take]
  split
  · next value next ran =>
      obtain ⟨kinds, streams, node, entries, holds, found, isDir, mutable, listed, isMap⟩ := mapped
      obtain ⟨before, key, rep, after, listed', holds', owns, changed⟩ :=
        DirStep.run_ok holds found isDir step.2 step.1 ran
      rw [← listed.unique listed', isMap] at changed
      exact ⟨kinds, streams, _, after, holds', owns.keyed, isDir, mutable, owns.listOf, changed⟩
  · exact mapped

theorem Mapped.takeAll {state : Filesystem × EntryMap} (mapped : Mapped parent state)
    (steps : List (Nat × DirStep)) : Mapped parent (steps.foldl (DirStep.take parent) state) := by
  induction steps generalizing state with
  | nil => exact mapped
  | cons step steps ih => exact ih (mapped.take step)

end Steps

/-- A transaction whose root directory got a subdirectory. -/
def rootWithDir : Filesystem × List Trail.Stream :=
  startedWith [.beginTxn 0, .make (.txn 0) [97] .dir]

theorem rootWithDir_reachable : FsReachable rootWithDir.1 rootWithDir.2 :=
  startedWith_reachable (by simp [FsOp.Allowed])

end Subversion.Fs
