/-
This file shows that what has been committed of a file stays, over every run of a filesystem.
-/

import Subversion.Fs.ChangeRuns
import Subversion.Fs.KeptTexts

namespace Subversion.Fs

open Framing Transactions

/-- One operation that meets the condition. -/
def FsStep (meets : Filesystem → FsOp → Prop) (before after : Filesystem × List Trail.Stream) : Prop :=
  ∃ order depth op opened, op.Allowed before.2 ∧ meets before.1 op ∧
    Trail.runFsOp order depth op before.1 = .ok (opened, after.1) ∧ after.2 = opened ++ before.2

abbrev FsRun (meets : Filesystem → FsOp → Prop) :
    Filesystem × List Trail.Stream → Filesystem × List Trail.Stream → Prop :=
  Relation.ReflTransGen (FsStep meets)

/-- A merge starts from a root directory. All of these have the number zero. -/
def FsOp.Rooted : FsOp → Prop
  | .merge _ source _ => source.headD 0 = 0
  | _ => True

/-- Besides, only mutable reps are written to, and nothing is deltified while a node is mutable. -/
def FsOp.Prudent (fs : Filesystem) : FsOp → Prop
  | .merge _ source _ => source.headD 0 = 0
  | .writeContents stream _ => Mutable fs.store stream.key
  | .deltify _ _ true _ => ∀ id node, fs.node id = some node → node.rev ≠ none
  | _ => True

instance (store : Store) (key : Nat) : Decidable (Mutable store key) :=
  decidable_of_iff ((store.reps key).any Rep.mutable = true) (by
    rw [Option.any_eq_true]
    exact ⟨fun ⟨rep, found, flag⟩ => ⟨rep, found, flag⟩, fun ⟨rep, found, flag⟩ => ⟨rep, found, flag⟩⟩)

instance (fs : Filesystem) (op : FsOp) : Decidable (op.Prudent fs) :=
  match op with
  | .merge _ source _ => inferInstanceAs (Decidable (source.headD 0 = 0))
  | .writeContents stream _ => inferInstanceAs (Decidable (Mutable fs.store stream.key))
  | .deltify _ _ true _ =>
      decidable_of_iff (∀ id ∈ fs.nodes.entries.keys, ∀ node ∈ fs.node id, node.rev ≠ none)
        ⟨fun all id node found => all id (AList.mem_keys.mp ((fs.mem_entries id).mpr ⟨node, found⟩)) node found,
          fun all id _ node found => all id node found⟩
  | .deltify _ _ false _ | .changeNodeProp .. | .make .. | .delete .. | .copy .. | .applyTextdelta ..
  | .finalizeEdits _ | .beginTxn _ | .commitTxn _ | .abortTxn _ => inferInstanceAs (Decidable True)

instance (streams : List Trail.Stream) (op : FsOp) : Decidable (op.Allowed streams) :=
  match op with
  | .writeContents stream _ | .finalizeEdits stream => inferInstanceAs (Decidable (stream ∈ streams))
  | .merge .. | .deltify .. | .changeNodeProp .. | .make .. | .delete .. | .copy .. | .applyTextdelta ..
  | .beginTxn _ | .commitTxn _ | .abortTxn _ => inferInstanceAs (Decidable True)

/-- What the changes of a filesystem keep. -/
structure Archived (files : Set Nat) (fs : Filesystem) : Prop where
  reps : RepsReachable fs.store
  grounded : Grounded fs
  frozen : Frozen fs
  lined : Lined fs
  fileReps : FileReps files fs

section Changing

variable {risky : Filesystem → Risk → Prop} {fs next : Filesystem} {files : Set Nat}

theorem Archived.step (archived : Archived files fs) (change : Change risky fs next) :
    ∃ more, Extends fs files more ∧ Archived more next := by
  obtain ⟨reps, grounded, frozen, lined, fileReps⟩ := archived
  obtain ⟨more, grows, after⟩ := fileReps.step grounded lined reps change
  exact ⟨more, grows, change.reps reps, grounded.step change, frozen.step reps change,
    lined.step grounded frozen reps change, after⟩

theorem archived_dagInitFs (path : String) : Archived ∅ (Trail.dagInitFs path) := by
  have only (id : NodeId) (node : NodeRev) (found : (Trail.dagInitFs path).node id = some node) :
      id = [0, 0] ∧ node = ⟨.dir, some 0, none, none, none, none⟩ := by
    have stored : List.dlookup id [(⟨[0, 0], ⟨.dir, some 0, none, none, none, none⟩⟩ :
        Sigma fun _ : NodeId => NodeRev)] = some node := found
    by_cases root : id = [0, 0]
    · subst root
      rw [List.dlookup_cons_eq] at stored
      cases stored
      exact ⟨rfl, rfl⟩
    · rw [List.dlookup_cons_ne [] _ root] at stored
      cases stored
  refine ⟨RepsReachable.empty, ⟨⟨fun _ => .dir, rfl, ?_⟩, ?_, ?_⟩, ?_, ?_, ?_, ?_, ?_⟩
  · intro id node found
    obtain ⟨rfl, rfl⟩ := only id node found
    exact ⟨⟨0, 0, [], rfl, Branches.nil⟩, by decide, rfl⟩
  · intro root member
    rw [List.mem_singleton.mp member]
    rfl
  · intro txn record found
    cases found
  · intro id node found committed
    obtain ⟨rfl, rfl⟩ := only id node found
    exact ⟨rfl, by simp⟩
  · intro id node found isFile
    obtain ⟨rfl, rfl⟩ := only id node found
    cases isFile
  · intro id node found key named
    obtain ⟨rfl, rfl⟩ := only id node found
    rcases named with impossible | impossible | impossible <;> cases impossible
  · exact fun key member => member.elim
  · exact fun key member => member.elim

/-- The state is archived, and its changes keep another property. -/
theorem closed_archived {kept : Filesystem → Prop}
    (step : ∀ {files fs next}, Archived files fs → kept fs → Change risky fs next → kept next) :
    Trail.Closed risky fun fs => (∃ files, Archived files fs) ∧ kept fs where
  step := by
    rintro fs next ⟨⟨files, archived⟩, holds⟩ change
    obtain ⟨more, -, after⟩ := archived.step change
    exact ⟨⟨more, after⟩, step archived holds change⟩
  reps holds := by
    obtain ⟨files, archived⟩ := holds.1
    exact archived.reps
  grounded holds := by
    obtain ⟨files, archived⟩ := holds.1
    exact archived.grounded

end Changing

section Running

variable {meets : Filesystem → FsOp → Prop} {risky : Filesystem → Risk → Prop}
  {kept : Filesystem → Prop} {start last : Filesystem × List Trail.Stream}

/-- A run keeps what the changes of its operations keep. -/
theorem FsRun.keeps (closed : Trail.Closed risky kept)
    (permits : ∀ fs op, meets fs op → op.Permitted risky fs) (sound : Trail.SoundIn start.2 start.1)
    (holds : kept start.1) (run : FsRun meets start last) :
    Trail.SoundIn last.2 last.1 ∧ kept last.1 := by
  induction run with
  | refl => exact ⟨sound, holds⟩
  | tail _ step ih =>
      obtain ⟨order, depth, op, opened, allowed, isMet, ran, streams⟩ := step
      rw [streams]
      exact ⟨Trail.runFsOp_sound order depth op allowed _ ih.1 _ _ ran,
        Trail.changes_runFsOp closed order depth ih.2 ih.1 (permits _ op isMet) ran⟩

/-- Every risk may be taken. -/
theorem FsOp.Rooted.permitted {fs : Filesystem} {op : FsOp} (rooted : op.Rooted) :
    op.Permitted (fun _ _ => True) fs := by
  cases op with
  | merge txn source ancestor => exact ⟨rooted, fun _ _ _ => ⟨trivial, trivial⟩⟩
  | deltify rev path doDeltify recursive =>
      cases doDeltify with
      | false => trivial
      | true => exact fun _ _ _ => Or.inr fun _ => trivial
  | _ => trivial

theorem FsRun.archived {path : String} (rooted : ∀ fs op, meets fs op → op.Rooted)
    (run : FsRun meets (Trail.dagInitFs path, []) last) :
    Trail.SoundIn last.2 last.1 ∧ ∃ files, Archived files last.1 := by
  have closed : Trail.Closed (fun _ _ => True) fun fs => (∃ files, Archived files fs) ∧ True :=
    closed_archived fun _ _ _ => trivial
  obtain ⟨sound, archived, -⟩ := FsRun.keeps closed (fun fs op isMet => (rooted fs op isMet).permitted)
    (Trail.dagInitFs_sound path) ⟨⟨∅, archived_dagInitFs path⟩, trivial⟩ run
  exact ⟨sound, archived⟩

end Running

section Histories

/-- Each operation may be tried when its turn comes. -/
def AllPrudent : List FsOp → Filesystem × List Trail.Stream → Bool
  | [], _ => true
  | op :: ops, state => decide (op.Allowed state.2 ∧ op.Prudent state.1) &&
      AllPrudent ops (Trail.attempt ⟨id, fun _ => List.Perm.refl _⟩ 9 state op)

theorem FsRun.weaken {meets other : Filesystem → FsOp → Prop} {start last : Filesystem × List Trail.Stream}
    (implies : ∀ fs op, meets fs op → other fs op) (run : FsRun meets start last) : FsRun other start last := by
  refine Relation.ReflTransGen.mono (fun before after step => ?_) _ _ run
  obtain ⟨order, depth, op, opened, allowed, isMet, rest⟩ := step
  exact ⟨order, depth, op, opened, allowed, implies _ op isMet, rest⟩

theorem FsRun.attempts (ops : List FsOp) :
    ∀ state, AllPrudent ops state = true → FsRun (fun fs op => op.Prudent fs ∧ op ∈ ops) state
      (ops.foldl (Trail.attempt ⟨id, fun _ => List.Perm.refl _⟩ 9) state) := by
  induction ops with
  | nil => exact fun _ _ => Relation.ReflTransGen.refl
  | cons op ops ih =>
      intro state all
      obtain ⟨first, rest⟩ := Bool.and_eq_true_iff.mp all
      obtain ⟨allowed, prudent⟩ := of_decide_eq_true first
      refine Relation.ReflTransGen.trans ?_
        ((ih _ rest).weaken fun _ _ both => ⟨both.1, List.mem_cons_of_mem op both.2⟩)
      rw [Trail.attempt]
      split
      · next opened next ran =>
          exact Relation.ReflTransGen.single ⟨_, 9, op, opened, allowed, ⟨prudent, List.mem_cons_self⟩, ran, rfl⟩
      · exact Relation.ReflTransGen.refl

/-- A file is made, given one byte, and committed. -/
def firstEdits : List FsOp :=
  [.beginTxn 0, .make (.txn 0) [97] .file, .applyTextdelta (.txn 0) [97],
    .writeContents ⟨[1, 1], 1⟩ (List.replicate 24 7), .finalizeEdits ⟨[1, 1], 1⟩, .commitTxn 0]

/-- Another byte is committed, and the first one is stored as a delta. -/
def secondEdits : List FsOp :=
  [.beginTxn 1, .applyTextdelta (.txn 1) [97], .writeContents ⟨[1, 2], 3⟩ (List.replicate 24 7 ++ [8]),
    .finalizeEdits ⟨[1, 2], 3⟩, .commitTxn 1, .deltify 2 [97] true false]

def afterSecond : Filesystem × List Trail.Stream :=
  secondEdits.foldl (Trail.attempt ⟨id, List.Perm.refl⟩ 9) (startedWith firstEdits)

/-- What the two lists of edits leave. -/
structure EditsLeave : Type where
  firstPrudent : AllPrudent firstEdits (Trail.dagInitFs "db", []) = true
  secondPrudent : AllPrudent secondEdits (startedWith firstEdits) = true
  root : (startedWith firstEdits).1.revisions[1]? = some [0, 1]
  rootNode : (startedWith firstEdits).1.node [0, 1] = some ⟨.dir, some 1, none, none, some 0, none⟩
  file : (startedWith firstEdits).1.node [1, 1] = some ⟨.file, some 1, none, none, some 1, none⟩
  text : (startedWith firstEdits).1.store.reps 1 = some ⟨false, .fulltext (some 1)⟩
  string : (startedWith firstEdits).1.store.strings.text (some 1) = some (List.replicate 24 7)
  older : afterSecond.1.node [1, 1] = some ⟨.file, some 1, none, none, some 1, none⟩
  newer : afterSecond.1.node [1, 2] = some ⟨.file, some 2, none, none, some 3, none⟩
  delta : afterSecond.1.store.reps 1 = some ⟨false, .delta [⟨0, 24, some 4, 3⟩]⟩

def editsLeave : EditsLeave where
  firstPrudent := by decide +kernel
  secondPrudent := by decide +kernel
  root := by decide +kernel
  rootNode := by decide +kernel
  file := by decide +kernel
  text := by decide +kernel
  string := by decide +kernel
  older := by decide +kernel
  newer := by decide +kernel
  delta := by decide +kernel

theorem firstEdits_within : FsRun (fun fs op => op.Prudent fs ∧ op ∈ firstEdits) (Trail.dagInitFs "db", [])
    (startedWith firstEdits) := FsRun.attempts firstEdits (Trail.dagInitFs "db", []) editsLeave.firstPrudent

theorem firstEdits_run :
    FsRun (fun fs op => op.Prudent fs) (Trail.dagInitFs "db", []) (startedWith firstEdits) :=
  firstEdits_within.weaken fun _ _ both => both.1

theorem secondEdits_within :
    FsRun (fun fs op => op.Prudent fs ∧ op ∈ secondEdits) (startedWith firstEdits) afterSecond := by
  have prudent := editsLeave.secondPrudent
  unfold afterSecond
  generalize startedWith firstEdits = state at prudent ⊢
  exact FsRun.attempts secondEdits state prudent

theorem secondEdits_run : FsRun (fun fs op => op.Prudent fs) (startedWith firstEdits) afterSecond :=
  secondEdits_within.weaken fun _ _ both => both.1

theorem rooted_of_prudent (fs : Filesystem) (op : FsOp) (prudent : op.Prudent fs) : op.Rooted := by
  cases op with
  | merge txn source ancestor => exact prudent
  | _ => trivial

end Histories

/-- In every run, a committed file stays in the table as it is, and so does a committed directory as
long as nothing is merged. -/
theorem committed_nodes_stay {meets later : Filesystem → FsOp → Prop} {path : String}
    {state last : Filesystem × List Trail.Stream} (rooted : ∀ fs op, meets fs op → op.Rooted)
    (earlier : FsRun meets (Trail.dagInitFs path, []) state)
    (still : ∀ fs op, later fs op → op.Rooted) (run : FsRun later state last) {id : NodeId} {node : NodeRev}
    (found : state.1.node id = some node) (committed : node.rev ≠ none)
    (spared : node.kind = .file ∨ ∀ fs op, later fs op → ∀ txn source ancestor,
      op ≠ .merge txn source ancestor) : last.1.node id = some node := by
  obtain ⟨sound, archived⟩ := earlier.archived rooted
  rcases spared with isFile | unmerged
  · have closed : Trail.Closed (fun _ _ => True) fun fs =>
        (∃ files, Archived files fs) ∧ fs.node id = some node :=
      closed_archived fun archived found change =>
        change.stays archived.grounded found committed (Or.inl isFile)
    exact (FsRun.keeps closed (fun fs op isMet => (still fs op isMet).permitted) sound ⟨archived, found⟩
      run).2.2
  · let risky : Filesystem → Risk → Prop := fun _ risk =>
      (∀ source target, risk ≠ .adopt source target) ∧ ∀ target, risk ≠ .drop target
    have closed : Trail.Closed risky fun fs =>
        (∃ files, Archived files fs) ∧ fs.node id = some node :=
      closed_archived fun archived found change =>
        change.stays archived.grounded found committed (Or.inr fun source target =>
          ⟨fun risk => risk.1 source target rfl, fun risk => risk.2 target rfl⟩)
    refine (FsRun.keeps closed (fun fs op isMet => ?_) sound ⟨archived, found⟩ run).2.2
    have other := unmerged fs op isMet
    cases op with
    | merge txn source ancestor => exact absurd rfl (other txn source ancestor)
    | writeContents stream bytes => exact ⟨by simp, by simp⟩
    | deltify rev path doDeltify recursive =>
        cases doDeltify with
        | false => trivial
        | true => exact fun _ _ _ => Or.inr fun _ => ⟨by simp, by simp⟩
    | _ => trivial

/-- The first revision of the file is as it was. -/
theorem committed_nodes_stay_second : afterSecond.1.node [1, 1] = (startedWith firstEdits).1.node [1, 1] := by
  have found := editsLeave.file
  rw [found]
  exact committed_nodes_stay rooted_of_prudent firstEdits_run rooted_of_prudent secondEdits_run found
    (by decide) (Or.inl rfl)

/-- In every run, a committed node has no pending edit, and its reps are there and immutable. -/
theorem committed_nodes_are_frozen {meets : Filesystem → FsOp → Prop} {path : String}
    {last : Filesystem × List Trail.Stream} (rooted : ∀ fs op, meets fs op → op.Rooted)
    (run : FsRun meets (Trail.dagInitFs path, []) last) {id : NodeId} {node : NodeRev}
    (found : last.1.node id = some node) (committed : node.rev ≠ none) :
    node.editKey = none ∧
      ∀ key, node.propKey = some key ∨ node.dataKey = some key → Immutable last.1.store key := by
  obtain ⟨-, files, archived⟩ := run.archived rooted
  exact archived.frozen id node found committed

theorem committed_nodes_are_frozen_second : Immutable afterSecond.1.store 1 := by
  have found := editsLeave.older
  exact (committed_nodes_are_frozen rooted_of_prudent (firstEdits_run.trans secondEdits_run) found
    (by decide)).2 1 (Or.inr rfl)

/-- In every run, all earlier revisions in the line of predecessors of a file are there and
committed. -/
theorem predecessors_are_committed {meets : Filesystem → FsOp → Prop} {path : String}
    {last : Filesystem × List Trail.Stream} (rooted : ∀ fs op, meets fs op → op.Rooted)
    (run : FsRun meets (Trail.dagInitFs path, []) last) {id : NodeId} {node : NodeRev}
    (found : last.1.node id = some node) (isFile : node.kind = .file) {earlier : NodeId}
    (line : Relation.TransGen (fun younger older => idPredecessor younger = some older) id earlier) :
    ∃ older, last.1.node earlier = some older ∧ older.kind = .file ∧ older.rev ≠ none := by
  obtain ⟨-, files, archived⟩ := run.archived rooted
  induction line with
  | single isPredecessor =>
      obtain ⟨older, isOlder, kind, committed, -⟩ := (archived.lined id node found isFile).2 _ isPredecessor
      exact ⟨older, isOlder, kind, committed⟩
  | tail _ isPredecessor ih =>
      obtain ⟨middle, isMiddle, middleFile, -⟩ := ih
      obtain ⟨older, isOlder, kind, committed, -⟩ :=
        (archived.lined _ middle isMiddle middleFile).2 _ isPredecessor
      exact ⟨older, isOlder, kind, committed⟩

theorem predecessors_are_committed_second :
    ∃ older, afterSecond.1.node [1, 1] = some older ∧ older.kind = .file ∧ older.rev ≠ none := by
  have found := editsLeave.newer
  exact predecessors_are_committed rooted_of_prudent (firstEdits_run.trans secondEdits_run) found rfl
    (Relation.TransGen.single (by decide))

/-- In every run, no rep of a file is built from a cycle of deltas, or from a rep of a directory. -/
theorem file_deltas_end {meets : Filesystem → FsOp → Prop} {path : String}
    {last : Filesystem × List Trail.Stream} (rooted : ∀ fs op, meets fs op → op.Rooted)
    (run : FsRun meets (Trail.dagInitFs path, []) last) {id : NodeId} {node : NodeRev}
    (found : last.1.node id = some node) (isFile : node.kind = .file) {key later : Nat}
    (named : node.Names key) (reaches : Relation.ReflTransGen (DeltaBase last.1.store) key later) :
    ¬ Relation.TransGen (DeltaBase last.1.store) later later ∧
      ∀ other dir, last.1.node other = some dir → dir.kind = .dir → ¬ dir.Names later := by
  obtain ⟨-, files, archived⟩ := run.archived rooted
  have member := (archived.fileReps.named id node found key named).2.mpr isFile
  have listed := (archived.fileReps.increasing member reaches).1
  constructor
  · intro cycle
    obtain ⟨base, isBase, back⟩ := Relation.TransGen.head'_iff.mp cycle
    obtain ⟨isListed, less⟩ := archived.fileReps.ordered later listed base isBase
    have := (archived.fileReps.increasing isListed back).2
    omega
  · intro other dir isOther isDir names
    have kind := (archived.fileReps.named other dir isOther later names).2.mp listed
    rw [isDir] at kind
    cases kind

/-- The first revision is a delta against the second one. -/
theorem file_deltas_end_second :
    DeltaBase afterSecond.1.store 1 3 ∧ ¬ Relation.TransGen (DeltaBase afterSecond.1.store) 3 3 := by
  have found := editsLeave.older
  have stored := editsLeave.delta
  have isBase : DeltaBase afterSecond.1.store 1 3 := ⟨_, _, _, stored, rfl, List.mem_singleton_self _, rfl⟩
  exact ⟨isBase, (file_deltas_end rooted_of_prudent (firstEdits_run.trans secondEdits_run) found rfl
    (Or.inr (Or.inl rfl)) (Relation.ReflTransGen.single isBase)).1⟩

/-- The contents of the file are read to their end. A recursion that is deep enough is not cut off. -/
def HoldsContents (fs : Filesystem) (id : NodeId) (text : Delta.Bytes) : Prop :=
  ∃ enough, ∀ depth chunk, enough ≤ depth → 0 < chunk →
    Trail.getContents chunk depth id fs = .ok (text, fs)

/-- The property list is read, again with a recursion that is deep enough. -/
def HoldsProplist (fs : Filesystem) (id : NodeId) (result : Except SvnError Skel) : Prop :=
  ∃ enough, ∀ depth, enough ≤ depth → (Trail.getProplist depth id fs).map Prod.fst = result

section Texts

variable {fs : Filesystem} {id : NodeId} {node : NodeRev}

theorem Legible.contents {store : Store} {key : Nat} {text : Delta.Bytes} (invariant : RepsInvariant store)
    (legible : Legible store key text) :
    ∃ enough, ∀ depth, enough ≤ depth → repContents store depth key = .ok text := by
  obtain ⟨⟨enough, serves⟩, sized⟩ := legible.serves
  refine ⟨enough + 1, fun depth deep => ?_⟩
  have whole := invariant.serves_mono deep serves
  rw [repContents, sized]
  dsimp only
  rw [whole]
  simp

/-- The text behind the key, if there is one. -/
def TextOf (store : Store) (key : Option Nat) (text : Option Delta.Bytes) : Prop :=
  key.elim (text = none) fun key => ∃ raw, text = some raw ∧ Legible store key raw

theorem holdsContents_of_text (invariant : RepsInvariant fs.store) (found : fs.node id = some node)
    (isFile : node.kind = .file) {text : Option Delta.Bytes} (isText : TextOf fs.store node.dataKey text) :
    HoldsContents fs id (text.getD []) := by
  unfold TextOf at isText
  cases named : node.dataKey with
  | none =>
      rw [named] at isText
      cases isText
      exact ⟨0, fun depth chunk _ _ => Trail.getContents_empty found isFile named chunk⟩
  | some key =>
      rw [named] at isText
      obtain ⟨raw, rfl, legible⟩ := isText
      obtain ⟨⟨enough, serves⟩, sized⟩ := Legible.serves legible
      exact ⟨enough + 1, fun depth chunk deep positive =>
        Trail.getContents_serves found isFile named (invariant.serves_mono deep serves) sized positive⟩

/-- The text of a property list, if there is one. -/
def parsedProps (text : Option Delta.Bytes) : Except SvnError Skel :=
  match text with
  | none => .ok (.list [])
  | some raw =>
      match parseSkel raw with
      | some proplist => .ok proplist
      | none => .error SvnError.undefinedBehaviour

theorem holdsProplist_of_text (invariant : RepsInvariant fs.store) (found : fs.node id = some node)
    {text : Option Delta.Bytes} (isText : TextOf fs.store node.propKey text) :
    HoldsProplist fs id (parsedProps text) := by
  have got : Trail.getNodeRevision id fs = .ok (node, fs) := Trail.getNodeRevision_ok.mpr ⟨found, rfl⟩
  unfold TextOf at isText
  cases named : node.propKey with
  | none =>
      rw [named] at isText
      cases isText
      refine ⟨0, fun depth _ => ?_⟩
      rw [Trail.getProplist, bind_run got, named]
      rfl
  | some key =>
      rw [named] at isText
      obtain ⟨raw, rfl, legible⟩ := isText
      obtain ⟨enough, reads⟩ := legible.contents invariant
      refine ⟨enough, fun depth deep => ?_⟩
      rw [Trail.getProplist, bind_run got, named]
      dsimp only [readStore, withStore]
      rw [reads depth deep, parsedProps]
      dsimp only
      cases parseSkel raw <;> rfl

theorem exists_textOf {first second : Store} {key : Option Nat} (legible : ∀ found, key = some found →
    ∃ text, Legible first found text ∧ Legible second found text) :
    ∃ text, TextOf first key text ∧ TextOf second key text := by
  cases key with
  | none => exact ⟨none, rfl, rfl⟩
  | some found =>
      obtain ⟨text, one, two⟩ := legible found rfl
      exact ⟨some text, ⟨text, rfl, one⟩, ⟨text, rfl, two⟩⟩

end Texts

/-- What prudent changes keep of one committed file. -/
structure Preserved (id : NodeId) (node : NodeRev) (texts : Nat → Delta.Bytes → Prop) (fs : Filesystem) :
    Prop where
  files : ∃ files, Archived files fs ∧ FilesLegible files fs.store
  found : fs.node id = some node
  legible : ∀ key text, node.propKey = some key ∨ node.dataKey = some key → texts key text →
    Legible fs.store key text

/-- The risks of prudent operations. -/
def prudentRisk (fs : Filesystem) : Risk → Prop
  | .write key => Mutable fs.store key
  | .deltify _ => False
  | _ => True

theorem FsOp.Prudent.permitted {fs : Filesystem} {op : FsOp} (prudent : op.Prudent fs) :
    op.Permitted prudentRisk fs := by
  cases op with
  | merge txn source ancestor => exact ⟨prudent, fun _ _ _ => ⟨trivial, trivial⟩⟩
  | writeContents stream bytes => exact prudent
  | deltify rev path doDeltify recursive =>
      cases doDeltify with
      | false => trivial
      | true => exact fun source node found => Or.inl (prudent source node found)
  | _ => trivial

section Preserving

theorem prudent_prudentRisk : Prudent prudentRisk :=
  ⟨fun _ _ risk => risk, fun _ _ risk => risk⟩

theorem closed_legible : Trail.Closed prudentRisk fun fs =>
    (∃ files, Archived files fs) ∧ ∃ files, Archived files fs ∧ FilesLegible files fs.store :=
  closed_archived fun _ ⟨files, archived, legible⟩ change => by
    obtain ⟨more, grows, after⟩ := archived.step change
    exact ⟨more, after, legible.step archived.fileReps archived.grounded archived.lined archived.frozen
      archived.reps prudent_prudentRisk change grows⟩

variable {id : NodeId} {node : NodeRev} {texts : Nat → Delta.Bytes → Prop} {fs next : Filesystem}

theorem Preserved.step (isFile : node.kind = .file) (committed : node.rev ≠ none)
    (preserved : Preserved id node texts fs) (change : Change prudentRisk fs next) :
    Preserved id node texts next := by
  obtain ⟨⟨files, archived, filesLegible⟩, found, legible⟩ := preserved
  obtain ⟨reps, grounded, frozen, lined, fileReps⟩ := archived
  obtain ⟨more, grows, after⟩ := Archived.step ⟨reps, grounded, frozen, lined, fileReps⟩ change
  refine ⟨⟨more, after, filesLegible.step fileReps grounded lined frozen reps prudent_prudentRisk change
    grows⟩, change.stays grounded found committed (Or.inl isFile), fun key text named isText => ?_⟩
  have member := (fileReps.named id node found key (named.imp_right Or.inl)).2.mpr isFile
  exact Legible.carried fileReps grounded lined frozen filesLegible reps prudent_prudentRisk change member
    ((frozen id node found committed).2 key named) (legible key text named isText)

end Preserving

/-- In every prudent run, a committed file can be read, and keeps its contents and its properties. -/
theorem committed_files_keep_texts {path : String} {state last : Filesystem × List Trail.Stream}
    (earlier : FsRun (fun fs op => op.Prudent fs) (Trail.dagInitFs path, []) state)
    (run : FsRun (fun fs op => op.Prudent fs) state last) {id : NodeId} {node : NodeRev}
    (found : state.1.node id = some node) (isFile : node.kind = .file) (committed : node.rev ≠ none) :
    (∃ text, HoldsContents state.1 id text ∧ HoldsContents last.1 id text) ∧
      ∃ result, HoldsProplist state.1 id result ∧ HoldsProplist last.1 id result := by
  have permits (fs : Filesystem) (op : FsOp) (prudent : op.Prudent fs) : op.Permitted prudentRisk fs :=
    prudent.permitted
  obtain ⟨sound, -, files, archived, legible⟩ := FsRun.keeps closed_legible permits
    (Trail.dagInitFs_sound path) ⟨⟨∅, archived_dagInitFs path⟩, ∅, archived_dagInitFs path,
      fun _ member => member.elim⟩ earlier
  have closed : Trail.Closed prudentRisk fun fs => (∃ files, Archived files fs) ∧
      Preserved id node (Legible state.1.store) fs :=
    closed_archived fun _ preserved change => preserved.step isFile committed change
  obtain ⟨-, -, preserved⟩ := FsRun.keeps closed permits sound ⟨⟨files, archived⟩,
    ⟨files, archived, legible⟩, found, fun _ _ _ isText => isText⟩ run
  obtain ⟨⟨_, after, -⟩, foundLast, legibleLast⟩ := preserved
  have readable (key : Nat) (named : node.propKey = some key ∨ node.dataKey = some key) :
      ∃ text, Legible state.1.store key text ∧ Legible last.1.store key text := by
    obtain ⟨rep, stored, -⟩ := (archived.frozen id node found committed).2 key named
    have member := (archived.fileReps.named id node found key (named.imp_right Or.inl)).2.mpr isFile
    obtain ⟨text, isText⟩ := legible key member rep stored
    exact ⟨text, isText, legibleLast key text named isText⟩
  obtain ⟨text, before, still⟩ := exists_textOf fun key named => readable key (Or.inr named)
  obtain ⟨props, propsBefore, propsStill⟩ := exists_textOf fun key named => readable key (Or.inl named)
  exact ⟨⟨text.getD [], holdsContents_of_text archived.reps.invariant found isFile before,
      holdsContents_of_text after.reps.invariant foundLast isFile still⟩,
    parsedProps props, holdsProplist_of_text archived.reps.invariant found propsBefore,
    holdsProplist_of_text after.reps.invariant foundLast propsStill⟩

theorem HoldsContents.unique {fs : Filesystem} {id : NodeId} {first second : Delta.Bytes}
    (one : HoldsContents fs id first) (two : HoldsContents fs id second) : first = second := by
  obtain ⟨enough, reads⟩ := one
  obtain ⟨more, readsToo⟩ := two
  have same := (reads (max enough more) 1 (le_max_left _ _) Nat.one_pos).symm.trans
    (readsToo _ 1 (le_max_right _ _) Nat.one_pos)
  cases same
  rfl

/-- The first text is read from the delta. -/
theorem committed_files_keep_texts_second :
    HoldsContents afterSecond.1 [1, 1] (List.replicate 24 7) := by
  have found := editsLeave.file
  have stored := editsLeave.text
  have string := editsLeave.string
  obtain ⟨⟨text, before, after⟩, -⟩ :=
    committed_files_keep_texts firstEdits_run secondEdits_run found rfl (by decide)
  obtain ⟨-, files, archived⟩ := firstEdits_run.archived rooted_of_prudent
  have isText := holdsContents_of_text archived.reps.invariant found rfl
    (show TextOf _ (some 1) (some _) from ⟨_, rfl, .fulltext stored rfl string⟩)
  have same : List.replicate 24 7 = text := isText.unique before
  rw [same]
  exact after

end Subversion.Fs
