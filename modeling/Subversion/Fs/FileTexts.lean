/-
This file models how the length and the contents of a file are read.
-/

import Subversion.Fs.Immutability
import Subversion.Fs.Trails

namespace Subversion.Fs

open Delta Framing Transactions

namespace Trail

/-- Without a rep, there are no bytes. -/
def txnBodyReadRep (store : Store) (depth : Nat) (key : Option Nat) (offset len : Nat) :
    Except SvnError Bytes :=
  match key with
  | some key => repReadRange store depth key offset len
  | none =>
      if 0 < offset then
        .error ⟨.fsRepChanged, "txn_body_read_rep: null rep, but offset past zero already"⟩
      else .ok []

/-- The stream of the file is read to its end. Each read asks for one chunk. -/
def getContents (chunk depth : Nat) (id : NodeId) : Trail Bytes := do
  let node ← getNodeRevision id
  ensure (node.kind = .file) ⟨.fsNotFile, "Attempted to get textual contents of a *non*-file node."⟩
  readStore fun store => pullStream (fun _ => txnBodyReadRep store depth node.dataKey) 0 chunk
    (node.dataKey.elim 1 (streamFuel store)) 0 []

/-- The empty key of a file without data names no rep. -/
def fileLength (id : NodeId) : Trail Nat := do
  let node ← getNodeRevision id
  ensure (node.kind = .file) ⟨.fsNotFile, "Attempted to get length of a *non*-file node."⟩
  match node.dataKey with
  | some key => readStore fun store => repContentsSize store key
  | none => fail ⟨.fsNoSuchRepresentation, "svn_fs__read_rep: no such representation `'"⟩

end Trail

/-- The contents of the file are this text, in whichever chunks they are read. -/
def FileReads (fs : Filesystem) (id : NodeId) (text : Bytes) : Prop :=
  ∀ chunk depth, 0 < chunk → Trail.getContents chunk (depth + 1) id fs = .ok (text, fs)

theorem FileReads.unique {fs : Filesystem} {id : NodeId} {first second : Bytes}
    (one : FileReads fs id first) (two : FileReads fs id second) : first = second := by
  have same := one 1 0 Nat.one_pos
  rw [two 1 0 Nat.one_pos] at same
  cases same
  rfl

section Streams

/-- A stream whose text is served comes to its end, one read after all bytes. -/
theorem pullStream_complete {reader : Reader} {rep chunk : Nat} {text : Bytes}
    (serves : Serves reader rep text) (positive : 0 < chunk) (fuel : Nat) :
    ∀ {pulled : Bytes}, pulled = text.take pulled.length → text.length - pulled.length < fuel →
      pullStream reader rep chunk fuel pulled.length pulled = .ok text := by
  induction fuel with
  | zero =>
      intro pulled isPrefix enough
      omega
  | succ fuel ih =>
      intro pulled isPrefix enough
      rw [pullStream, serves]
      dsimp only
      split
      · next ended =>
          rcases List.take_eq_nil_iff.mp ended with zero | dropped
          · omega
          · rw [isPrefix, List.take_of_length_le (List.drop_eq_nil_iff.mp dropped)]
      · next more =>
          have read := List.length_pos_iff.mpr more
          have short : pulled.length < text.length := by
            by_contra long
            exact more (by rw [List.drop_eq_nil_of_le (by omega), List.take_nil])
          rw [← List.length_append]
          apply ih (prefix_append_chunk isPrefix chunk)
          rw [List.length_append]
          omega

variable {fs : Filesystem} {id : NodeId} {node : NodeRev} {key depth : Nat} {text : Bytes}

theorem Trail.getContents_serves (found : fs.node id = some node) (isFile : node.kind = .file)
    (named : node.dataKey = some key) (serves : Serves (repReadRange fs.store depth) key text)
    (sized : repContentsSize fs.store key = .ok text.length) {chunk : Nat} (positive : 0 < chunk) :
    Trail.getContents chunk depth id fs = .ok (text, fs) := by
  simp only [Trail.getContents, bind_ok, Trail.getNodeRevision_ok, ensure_ok, readStore_ok]
  refine ⟨node, fs, ⟨found, rfl⟩, (), fs, ⟨isFile, rfl⟩, ?_, rfl⟩
  rw [named, Option.elim_some, streamFuel, sized]
  have same : Serves (fun _ => Trail.txnBodyReadRep fs.store depth (some key)) 0 text := serves
  exact pullStream_complete same positive _ List.take_zero.symm (by simp)

theorem Trail.getContents_empty (found : fs.node id = some node) (isFile : node.kind = .file)
    (unnamed : node.dataKey = none) (chunk : Nat) :
    Trail.getContents chunk depth id fs = .ok ([], fs) := by
  simp only [Trail.getContents, bind_ok, Trail.getNodeRevision_ok, ensure_ok, readStore_ok]
  refine ⟨node, fs, ⟨found, rfl⟩, (), fs, ⟨isFile, rfl⟩, ?_, rfl⟩
  rw [unnamed]
  rfl

theorem Trail.fileLength_ok {length : Nat} {next : Filesystem} :
    Trail.fileLength id fs = .ok (length, next) ↔ ∃ node key, fs.node id = some node ∧
      node.kind = .file ∧ node.dataKey = some key ∧ repContentsSize fs.store key = .ok length ∧
      next = fs := by
  simp only [Trail.fileLength, bind_ok, Trail.getNodeRevision_ok, ensure_ok]
  constructor
  · rintro ⟨node, _, ⟨found, rfl⟩, -, _, ⟨isFile, rfl⟩, read⟩
    cases named : node.dataKey with
    | none =>
        rw [named] at read
        cases read
    | some key =>
        rw [named] at read
        obtain ⟨sized, rfl⟩ := readStore_ok.mp read
        exact ⟨node, key, found, isFile, named, sized, rfl⟩
  · rintro ⟨node, key, found, isFile, named, sized, rfl⟩
    refine ⟨node, next, ⟨found, rfl⟩, (), next, ⟨isFile, rfl⟩, ?_⟩
    rw [named]
    exact readStore_ok.mpr ⟨sized, rfl⟩

end Streams

/-- The string of every fulltext exists. -/
def Stored (store : Store) : Prop :=
  ∀ key rep strKey, store.reps key = some rep → rep.kind = .fulltext strKey →
    ∃ text, store.strings.text strKey = some text

section Strings

variable {store next : Store} {depth : Nat}

theorem text_of_kept {strKey : StrKey} {text : Bytes}
    (kept : next.strings.records strKey = store.strings.records strKey)
    (present : store.strings.text strKey = some text) : next.strings.text strKey = some text := by
  rw [StringsTable.text, kept]
  exact present

theorem Stored.replace (stored : Stored store) {changed : Nat} {rep : Option Rep}
    (replaces : Replaces store next changed rep)
    (new : ∀ found strKey, rep = some found → found.kind = .fulltext strKey →
      ∃ text, next.strings.text strKey = some text) : Stored next := by
  intro key found strKey present kind
  by_cases same : key = changed
  · subst same
    rw [replaces.this] at present
    exact new found strKey present kind
  · rw [replaces.other same] at present
    obtain ⟨text, isText⟩ := stored key found strKey present kind
    refine ⟨text, text_of_kept (replaces.kept key found same present strKey ?_) isText⟩
    rw [kind]
    exact List.mem_singleton_self _

theorem Stored.replace_fulltext (stored : Stored store) {changed : Nat} {rep : Rep} {strKey : StrKey}
    {text : Bytes} (replaces : Replaces store next changed (some rep))
    (kind : rep.kind = .fulltext strKey) (present : next.strings.text strKey = some text) :
    Stored next := by
  apply stored.replace replaces
  rintro _ other ⟨⟩ otherKind
  rw [kind] at otherKind
  cases otherKind
  exact ⟨text, present⟩

theorem Stored.step (stored : Stored store) (invariant : RepsInvariant store) {op : RepOp}
    (ran : runRepOp store depth op = .ok next) : Stored next := by
  cases op with
  | getMutable rep =>
      simp only [runRepOp] at ran
      cases got : getMutableRep store depth rep with
      | error error => rw [got] at ran; cases ran
      | ok result =>
          rw [got] at ran
          cases ran
          rcases invariant.getMutableRep_replaces got with
            ⟨-, same, -⟩ | ⟨-, -, strKey, bytes, replaces, text, -⟩
          · rw [same]
            exact stored
          · exact stored.replace_fulltext replaces rfl text
  | makeImmutable rep =>
      obtain ⟨old, found, strings, -, replaces⟩ := invariant.makeRepImmutable_replaces ran
      apply stored.replace replaces
      rintro _ strKey ⟨⟩ kind
      rw [strings]
      exact stored rep old strKey found kind
  | deleteIfMutable rep =>
      obtain ⟨old, -, -, ⟨-, same⟩ | ⟨-, replaces⟩⟩ := invariant.deleteRepIfMutable_replaces ran
      · rw [same]
        exact stored
      · exact stored.replace replaces (by simp)
  | write rep bytes =>
      obtain ⟨old, strKey, found, kind, -, replaces, grown⟩ := invariant.repWrite_replaces ran
      obtain ⟨text, present⟩ := stored rep old strKey found kind
      exact stored.replace_fulltext replaces kind (grown text present)
  | clear rep =>
      obtain ⟨old, strKey, -, -, kind, -, replaces, empty⟩ :=
        invariant.repContentsClear_replaces ran
      exact stored.replace_fulltext replaces kind empty
  | deltify target source =>
      obtain ⟨-, ⟨reps, grows⟩ | ⟨sourceText, targetText, entry, window, deltified⟩⟩ :=
        invariant.repDeltify_effect ran
      · intro key rep strKey present kind
        rw [reps] at present
        obtain ⟨text, isText⟩ := stored key rep strKey present kind
        refine ⟨text, text_of_kept (invariant.grown_kept grows present ?_) isText⟩
        rw [kind]
        exact List.mem_singleton_self _
      · apply stored.replace deltified.replaces
        rintro _ strKey ⟨⟩ ⟨⟩
  | undeltify rep =>
      obtain ⟨-, same | ⟨text, strKey, -, -, present, replaces⟩⟩ := invariant.repUndeltify_effect ran
      · rw [same]
        exact stored
      · exact stored.replace_fulltext replaces rfl present

/-- In every reachable state, each fulltext has its string. -/
theorem RepsReachable.stored (reachable : RepsReachable store) : Stored store := by
  induction reachable with
  | empty =>
      rintro key rep strKey ⟨⟩
  | step earlier ran ih => exact ih.step earlier.invariant ran

/-- A mutable rep that is there can be deleted. -/
theorem RepsReachable.deletes (reachable : RepsReachable store) {key : Nat} {rep : Rep}
    (found : store.reps key = some rep) : ∃ next, deleteRepIfMutable store key = .ok next := by
  unfold deleteRepIfMutable readRep
  rw [found]
  dsimp only
  split
  · next flag =>
      cases kind : rep.kind with
      | delta windows =>
          have immutable := (reachable.invariant.single key rep windows found kind).1
          rw [flag] at immutable
          cases immutable
      | fulltext strKey =>
          obtain ⟨text, present⟩ := reachable.stored key rep strKey found kind
          obtain ⟨records, isRecords, -⟩ := Option.map_eq_some_iff.mp present
          simp [RepKind.strKeys, deleteStrings, stringDelete, isRecords, deleteRep, found]
  · exact ⟨store, rfl⟩

end Strings

end Subversion.Fs
