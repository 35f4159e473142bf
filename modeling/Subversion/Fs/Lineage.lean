/-
This file shows that committed files stay as they are, behind their successors.
-/

import Subversion.Fs.Ancestry
import Subversion.Fs.ChangeSteps

namespace Subversion.Fs

open Transactions

section Flags

variable {store next : Store} {depth key : Nat}

/-- No operation makes an immutable rep mutable again, and none removes it. -/
theorem Immutable.persists (reachable : RepsReachable store) {op : RepOp}
    (ran : runRepOp store depth op = .ok next) (immutable : Immutable store key) : Immutable next key := by
  have invariant := reachable.invariant
  obtain ⟨found, stored, flag⟩ := immutable
  have distinct {other : Nat} {rep : Rep} (present : store.reps other = some rep)
      (mutable : rep.mutable = true) (same : key = other) : False := by
    rw [← same, stored] at present
    cases present
    rw [flag] at mutable
    cases mutable
  have same {other : Nat} {rep : Rep} (present : store.reps other = some rep) (isOther : key = other) :
      rep.mutable = false := by
    rw [← isOther, stored] at present
    cases present
    exact flag
  have immutable : Immutable store key := ⟨found, stored, flag⟩
  cases op with
  | getMutable rep =>
      simp only [runRepOp] at ran
      cases got : getMutableRep store depth rep with
      | error error => rw [got] at ran; cases ran
      | ok result =>
          rw [got] at ran
          cases ran
          rcases invariant.getMutableRep_replaces got with ⟨-, unchanged, -⟩ | ⟨isNew, -, _, _, replaces, -⟩
          · rw [unchanged]
            exact immutable
          · refine immutable.replace replaces fun isOther => ?_
            have small := invariant.in_range stored
            omega
  | makeImmutable rep => exact (invariant.makeRepImmutable_spares ran immutable).1
  | deleteIfMutable rep =>
      obtain ⟨old, present, -, ⟨-, unchanged⟩ | ⟨mutable, replaces⟩⟩ :=
        invariant.deleteRepIfMutable_replaces ran
      · rw [unchanged]
        exact immutable
      · exact immutable.replace replaces fun isOther => (distinct present mutable isOther).elim
  | write rep bytes =>
      obtain ⟨old, -, present, -, -, replaces, -⟩ := invariant.repWrite_replaces ran
      exact immutable.replace replaces fun isOther => ⟨old, rfl, same present isOther⟩
  | clear rep =>
      obtain ⟨old, -, present, mutable, -, -, replaces, -⟩ := invariant.repContentsClear_replaces ran
      exact immutable.replace replaces fun isOther => (distinct present mutable isOther).elim
  | deltify target source =>
      obtain ⟨-, ⟨reps, -⟩ | ⟨_, _, _, _, deltified⟩⟩ := invariant.repDeltify_effect ran
      · unfold Immutable
        rw [reps]
        exact immutable
      · exact immutable.replace deltified.replaces fun _ => ⟨_, rfl, rfl⟩
  | undeltify rep =>
      obtain ⟨-, unchanged | ⟨_, _, -, -, -, replaces⟩⟩ := invariant.repUndeltify_effect ran
      · rw [unchanged]
        exact immutable
      · exact immutable.replace replaces fun _ => ⟨_, rfl, rfl⟩

/-- The operation makes no delta, and writes to no immutable rep unless that is a risk to be taken. -/
def Quiet (risk : Nat → Prop) (store : Store) : RepOp → Prop
  | .write key _ => Mutable store key ∨ risk key
  | .deltify _ _ => False
  | _ => True

/-- Quiet operations on reps. -/
abbrev Touches (risk : Nat → Prop) : Store → Store → Prop := Relation.ReflTransGen (AllowedStep (Quiet risk))

section Touching

variable {risk : Nat → Prop}

theorem Touches.op {op : RepOp} (quiet : Quiet risk store op) (ran : runRepOp store depth op = .ok next) :
    Touches risk store next := Relation.ReflTransGen.single ⟨depth, op, quiet, ran⟩

theorem Touches.getMutable {rep : Option Nat} (got : getMutableRep store depth rep = .ok (key, next)) :
    Touches risk store next := by
  have ran : runRepOp store depth (.getMutable rep) = .ok next := by
    rw [runRepOp, got]
    rfl
  exact @Touches.op store next depth risk (.getMutable rep) trivial ran

theorem Touches.clear (cleared : repContentsClear store key = .ok next) : Touches risk store next :=
  @Touches.op store next 0 risk (.clear key) trivial cleared

theorem Touches.write {bytes : Delta.Bytes} (quiet : Mutable store key ∨ risk key)
    (wrote : repWrite store key bytes = .ok next) : Touches risk store next :=
  @Touches.op store next 0 risk (.write key bytes) quiet wrote

/-- What is written was cleared before. -/
theorem SetsProps.touches {fs : Filesystem} {node : NodeRev} {proplist : Skel}
    (reachable : RepsReachable fs.store) (sets : SetsProps fs node proplist key store) :
    ∃ depth first, getMutableRep fs.store depth node.propKey = .ok (key, first) ∧
      Touches risk first store := by
  obtain ⟨-, depth, first, second, got, cleared, wrote⟩ := sets
  have invariant := (reachable.run (@Touches.getMutable _ _ _ _ risk _ got)).invariant
  have mutable := (Mutable.of_clear invariant cleared).2
  exact ⟨depth, first, got, (Touches.clear cleared).trans (Touches.write (Or.inl mutable) wrote)⟩

end Touching

theorem Immutable.touches {risk : Nat → Prop} (reachable : RepsReachable store)
    (touches : Touches risk store next)
    (immutable : Immutable store key) : Immutable next key := by
  induction touches with
  | refl => exact immutable
  | tail earlier step ih =>
      obtain ⟨depth, op, -, ran⟩ := step
      exact ih.persists (reachable.run earlier) ran

/-- One rep becomes a delta against the other. -/
structure Deltifies (risky : Filesystem → Risk → Prop) (fs : Filesystem) (key base : Nat) (store : Store) :
    Prop where
  nodes : ∃ target source targetNode sourceNode, fs.node target = some targetNode ∧
    fs.node source = some sourceNode ∧ Follows target source ∧ Paired targetNode sourceNode key base ∧
    (sourceNode.rev ≠ none ∨ risky fs (.deltify source))
  distinct : key ≠ base
  deltified : ∃ depth, repDeltify fs.store depth key base = .ok store

/-- What a change does to the reps: quiet operations, one write at a risk, or one deltification. -/
theorem Change.effect {risky : Filesystem → Risk → Prop} {fs next : Filesystem}
    (reachable : RepsReachable fs.store) (change : Change risky fs next) :
    Touches (fun _ => False) fs.store next.store ∨
      (∃ key bytes, risky fs (.write key) ∧ repWrite fs.store key bytes = .ok next.store) ∨
      ∃ key base, Deltifies risky fs key base next.store := by
  cases change with
  | setProps found mutable sets other =>
      obtain ⟨depth, first, got, written⟩ := sets.touches reachable
      exact Or.inl ((Touches.getMutable got).trans written)
  | resetProps found mutable sets same =>
      obtain ⟨depth, first, got, written⟩ := sets.touches reachable
      exact Or.inl ((Touches.getMutable got).trans written)
  | ownData found mutable got other => exact Or.inl (Touches.getMutable got)
  | ownEdit found isFile mutable unedited got => exact Or.inl (Touches.getMutable got)
  | rewrite noProps mutable wrote => exact Or.inl (Touches.write (Or.inl mutable) wrote)
  | write risk wrote => exact Or.inr (Or.inl ⟨_, _, risk, wrote⟩)
  | clear noProps cleared => exact Or.inl (Touches.clear cleared)
  | @deleteRep key store deleted => exact Or.inl (@Touches.op _ _ 0 _ (.deleteIfMutable key) trivial deleted)
  | @freeze key store made => exact Or.inl (@Touches.op _ _ 0 _ (.makeImmutable key) trivial made)
  | @undeltify key depth store undeltified =>
      exact Or.inl (@Touches.op _ _ depth _ (.undeltify key) trivial undeltified)
  | deltify isTarget isSource follows paired distinct committed deltified =>
      exact Or.inr (Or.inr ⟨_, _, ⟨_, _, _, _, isTarget, isSource, follows, paired, committed⟩, distinct, _,
        deltified⟩)
  | _ => exact Or.inl Relation.ReflTransGen.refl

theorem Quiet.mono {risk bolder : Nat → Prop} (bold : ∀ key, risk key → bolder key) {op : RepOp}
    (quiet : Quiet risk store op) : Quiet bolder store op := by
  cases op with
  | write key bytes => exact quiet.imp_right (bold key)
  | _ => exact quiet

/-- Only a deltification makes a delta. -/
theorem Change.touches {risky : Filesystem → Risk → Prop} {fs next : Filesystem}
    (reachable : RepsReachable fs.store) (change : Change risky fs next) :
    Touches (fun key => risky fs (.write key)) fs.store next.store ∨
      ∃ key base, Deltifies risky fs key base next.store := by
  rcases change.effect reachable with quiet | ⟨key, bytes, risk, wrote⟩ | deltifies
  · refine Or.inl (Relation.ReflTransGen.mono (fun before after step => ?_) _ _ quiet)
    obtain ⟨depth, op, isQuiet, ran⟩ := step
    exact ⟨depth, op, isQuiet.mono fun _ => False.elim, ran⟩
  · exact Or.inl (Touches.write (Or.inr risk) wrote)
  · exact Or.inr deltifies

theorem Change.reps {risky : Filesystem → Risk → Prop} {fs next : Filesystem}
    (reachable : RepsReachable fs.store) (change : Change risky fs next) : RepsReachable next.store := by
  rcases change.touches reachable with touches | ⟨key, base, deltifies⟩
  · exact reachable.run touches
  · obtain ⟨depth, deltified⟩ := deltifies.deltified
    exact @RepsReachable.step _ _ depth (.deltify key base) reachable deltified

/-- What is immutable stays so. -/
theorem Change.immutable {risky : Filesystem → Risk → Prop} {fs next : Filesystem}
    (reachable : RepsReachable fs.store) (change : Change risky fs next)
    (immutable : Immutable fs.store key) : Immutable next.store key := by
  rcases change.touches reachable with touches | ⟨rep, base, deltifies⟩
  · exact immutable.touches reachable touches
  · obtain ⟨depth, deltified⟩ := deltifies.deltified
    exact @Immutable.persists _ _ depth key reachable (.deltify rep base) deltified immutable

end Flags

/-- The node has finished its edits, and its reps are immutable. -/
def Sealed (fs : Filesystem) (node : NodeRev) : Prop :=
  node.editKey = none ∧ ∀ key, node.propKey = some key ∨ node.dataKey = some key → Immutable fs.store key

/-- Committed nodes are finished. -/
def Frozen (fs : Filesystem) : Prop := AllNodes (fun _ node => node.rev ≠ none → Sealed fs node) fs

section Committed

variable {risky : Filesystem → Risk → Prop} {fs next : Filesystem}

/-- Reps stay immutable, and a node that is put is mutable or finished. -/
theorem Frozen.put (frozen : Frozen fs) {store : Store} {id : NodeId} {new : NodeRev}
    (immutable : ∀ key, Immutable fs.store key → Immutable store key)
    (finished : new.rev ≠ none → Sealed (fs.setStore store) new) :
    Frozen ((fs.setStore store).putNode id new) := by
  intro other node stored committed
  rw [Filesystem.node_putNode] at stored
  split at stored
  · cases stored
    exact finished committed
  · obtain ⟨unedited, all⟩ := frozen other node stored committed
    exact ⟨unedited, fun key isKey => immutable key (all key isKey)⟩

theorem Frozen.shrink (frozen : Frozen fs) (nodes : ∀ id node, next.node id = some node → fs.node id = some node)
    (immutable : ∀ key, Immutable fs.store key → Immutable next.store key) : Frozen next := by
  intro id node stored committed
  obtain ⟨unedited, all⟩ := frozen id node (nodes id node stored) committed
  exact ⟨unedited, fun key isKey => immutable key (all key isKey)⟩

theorem node_of_eraseNode {id other : NodeId} {node : NodeRev}
    (stored : (fs.eraseNode id).node other = some node) : fs.node other = some node := by
  rw [Filesystem.node_eraseNode] at stored
  split at stored
  · cases stored
  · exact stored

theorem Frozen.step (frozen : Frozen fs) (reachable : RepsReachable fs.store)
    (change : Change risky fs next) : Frozen next := by
  have immutable (key : Nat) : Immutable fs.store key → Immutable next.store key :=
    change.immutable reachable
  have unchanged (key : Nat) : Immutable fs.store key → Immutable fs.store key := id
  cases change with
  | create kind chosen within => exact frozen.put unchanged (absurd rfl)
  | copy origin found chosen within => exact frozen.put unchanged (absurd rfl)
  | succeed found committed chosen within =>
      exact frozen.put unchanged (absurd rfl)
  | setProps found mutable sets other => exact frozen.put immutable (absurd mutable)
  | ownData found mutable got other => exact frozen.put immutable (absurd mutable)
  | ownEdit found isFile mutable unedited got => exact frozen.put immutable (absurd mutable)
  | finalize found mutable edited => exact frozen.put unchanged (absurd mutable)
  | remove found mutable => exact frozen.shrink (fun _ _ => node_of_eraseNode) fun _ => id
  | stabilize rev found mutable finished all =>
      exact frozen.put unchanged fun _ => ⟨finished, all⟩
  | adopt risk shaped isTarget isDir related chosen within =>
      exact frozen.put unchanged (frozen _ _ isTarget)
  | drop risk found isDir => exact frozen.shrink (fun _ _ => node_of_eraseNode) fun _ => id
  | _ => exact frozen.shrink (fun _ _ stored => stored) immutable

/-- A committed node stays as it is, unless it is a directory that a merge drops or overwrites. -/
theorem Change.stays (grounded : Grounded fs) (change : Change risky fs next) {id : NodeId} {node : NodeRev}
    (found : fs.node id = some node) (committed : node.rev ≠ none)
    (spared : node.kind = .file ∨ ∀ source target, ¬ risky fs (.adopt source target) ∧
      ¬ risky fs (.drop target)) : next.node id = some node := by
  have fresh {other : NodeId} {new : NodeRev} (free : fs.node other = none) :
      (fs.putNode other new).node id = some node := by
    have distinct : id ≠ other := by
      rintro rfl
      rw [found] at free
      cases free
    rw [Filesystem.node_putNode, if_neg distinct, found]
  have loose {other : NodeId} {old : NodeRev} (present : fs.node other = some old) (mutable : old.rev = none) :
      id ≠ other := by
    rintro rfl
    rw [found] at present
    cases present
    exact committed mutable
  cases change with
  | create kind chosen within => exact fresh (grounded.newNode chosen)
  | copy origin isSource chosen within => exact fresh (grounded.newNode chosen)
  | succeed isOld isCommitted chosen within => exact fresh (grounded.fresh isOld chosen)
  | setProps isNode mutable sets other =>
      rw [Filesystem.node_putNode, if_neg (loose isNode mutable)]
      exact found
  | ownData isNode mutable got other =>
      rw [Filesystem.node_putNode, if_neg (loose isNode mutable)]
      exact found
  | ownEdit isNode isFile mutable unedited got =>
      rw [Filesystem.node_putNode, if_neg (loose isNode mutable)]
      exact found
  | finalize isNode mutable edited =>
      rw [Filesystem.node_putNode, if_neg (loose isNode mutable)]
      exact found
  | remove isNode mutable =>
      rw [Filesystem.node_eraseNode, if_neg (loose isNode mutable)]
      exact found
  | stabilize rev isNode mutable finished frozen =>
      rw [Filesystem.node_putNode, if_neg (loose isNode mutable)]
      exact found
  | @adopt source target successor old risk shaped isTarget isDir related chosen within =>
      rcases spared with isFile | none
      · -- the successor is numbered like the target, a directory
        have distinct : id ≠ successor := by
          rintro rfl
          have family := (newSuccessorId_family grounded.shaped shaped chosen).2
          have same := grounded.kind found isTarget (family.trans related)
          rw [isFile, isDir] at same
          cases same
        rw [Filesystem.node_putNode, if_neg distinct]
        exact found
      · exact absurd risk (none source target).1
  | @drop target old risk isTarget isDir =>
      rcases spared with isFile | none
      · have distinct : id ≠ target := by
          rintro rfl
          rw [found] at isTarget
          cases isTarget
          rw [isFile] at isDir
          cases isDir
        rw [Filesystem.node_eraseNode, if_neg distinct]
        exact found
      · exact absurd risk (none target target).2
  | _ => exact found

end Committed

/-- Where the first names a rep, the second names the same or a later one. -/
def NotLater (first second : Option Nat) : Prop := ∀ key, first = some key → ∃ later, second = some later ∧ key ≤ later

/-- The reps of one node are not later than those of the other. -/
structure NodeRev.Behind (older node : NodeRev) : Prop where
  props : NotLater older.propKey node.propKey
  data : NotLater older.dataKey node.dataKey
  edit : ∀ key, node.editKey = some key → NotLater older.dataKey (some key)

/-- The node is a committed file whose reps are not later than those of the other. -/
def Precedes (fs : Filesystem) (id : NodeId) (node : NodeRev) : Prop :=
  ∃ older, fs.node id = some older ∧ older.kind = .file ∧ older.rev ≠ none ∧ older.Behind node

/-- Files have regular ids, and the predecessor of each is there. -/
def Lined (fs : Filesystem) : Prop :=
  AllNodes (fun id node => node.kind = .file →
    Numbered id ∧ ∀ predecessor, idPredecessor id = some predecessor → Precedes fs predecessor node) fs

section Lines

theorem NotLater.refl (key : Option Nat) : NotLater key key := fun found isKey => ⟨found, isKey, le_rfl⟩

theorem NotLater.trans {first second third : Option Nat} (one : NotLater first second)
    (two : NotLater second third) : NotLater first third := by
  intro key isKey
  obtain ⟨middle, isMiddle, le⟩ := one key isKey
  obtain ⟨last, isLast, further⟩ := two middle isMiddle
  exact ⟨last, isLast, le.trans further⟩

theorem NodeRev.Behind.trans {first second third : NodeRev} (one : first.Behind second)
    (two : second.Behind third) : first.Behind third :=
  ⟨one.props.trans two.props, one.data.trans two.data, fun key edited => one.data.trans (two.edit key edited)⟩

/-- A node without a pending edit is not behind itself. -/
theorem NodeRev.behind_self {node : NodeRev} (unedited : node.editKey = none) : node.Behind node :=
  ⟨NotLater.refl _, NotLater.refl _, fun key edited => by rw [unedited] at edited; cases edited⟩

theorem Numbered.exists_last {id : NodeId} (numbered : Numbered id) :
    ∃ front number revision, Pairs front ∧ 1 ≤ revision ∧ id = front ++ [number, revision] := by
  obtain ⟨node, first, rest, rfl, started, branches⟩ := numbered
  have shaped : Shaped (node :: first :: rest) := ⟨node, first, rest, rfl, branches⟩
  obtain ⟨front, number, revision, pairs, same⟩ := shaped.exists_last
  refine ⟨front, number, revision, pairs, ?_, same⟩
  cases pairs with
  | nil =>
      cases same
      exact started
  | cons other earlier fronts =>
      cases same
      obtain ⟨-, last⟩ := branches.of_append fronts
      cases last with
      | cons positive begun _ => exact begun

theorem Numbered.of_append {front : NodeId} (pairs : Pairs front) {number revision : Nat} {rest : NodeId}
    (numbered : Numbered (front ++ number :: revision :: rest)) :
    Numbered (front ++ [number, revision]) := by
  obtain ⟨node, first, more, split, started, branches⟩ := numbered
  cases pairs with
  | nil =>
      cases split
      exact ⟨number, revision, [], rfl, started, Branches.nil⟩
  | cons other earlier fronts =>
      cases split
      obtain ⟨before, others⟩ := branches.of_append fronts
      cases others with
      | cons positive begun later =>
          exact ⟨_, _, _, rfl, started, before.append (Branches.cons positive begun Branches.nil)⟩

theorem Numbered.next {front : NodeId} {number revision : Nat} (pairs : Pairs front)
    (numbered : Numbered (front ++ [number, revision])) : Numbered (front ++ [number, revision + 1]) := by
  obtain ⟨node, first, more, split, started, branches⟩ := numbered
  cases pairs with
  | nil =>
      cases split
      exact ⟨number, revision + 1, [], rfl, Nat.le_add_left _ _, Branches.nil⟩
  | cons other earlier fronts =>
      cases split
      obtain ⟨before, others⟩ := branches.of_append fronts
      cases others with
      | cons positive begun later =>
          exact ⟨_, _, _, rfl, started,
            before.append (Branches.cons positive (Nat.le_add_left _ _) Branches.nil)⟩

theorem Numbered.branch {id : NodeId} (numbered : Numbered id) {branch : Nat} (positive : 1 ≤ branch) :
    Numbered (id ++ [branch, 1]) := by
  obtain ⟨node, first, rest, rfl, started, branches⟩ := numbered
  exact ⟨node, first, rest ++ [branch, 1], rfl, started,
    branches.append (Branches.cons positive le_rfl Branches.nil)⟩

theorem idPredecessor_branch (id : NodeId) (nonempty : id ≠ []) (branch : Nat) :
    idPredecessor (id ++ [branch, 1]) = some id := by
  rw [idPredecessor_append, if_neg (lt_irrefl 1), if_neg nonempty]

variable {risky : Filesystem → Risk → Prop} {fs next : Filesystem}

/-- Each earlier revision on the same branch precedes the file. -/
theorem Lined.earlier (lined : Lined fs) (frozen : Frozen fs) {front : NodeId} {number earlier : Nat}
    (started : 1 ≤ earlier) (more : Nat) :
    ∀ {node : NodeRev}, fs.node (front ++ [number, earlier + more]) = some node → node.kind = .file →
      node.rev ≠ none → Precedes fs (front ++ [number, earlier]) node := by
  induction more with
  | zero =>
      intro node found isFile committed
      exact ⟨node, found, isFile, committed, NodeRev.behind_self (frozen _ node found committed).1⟩
  | succ more ih =>
      intro node found isFile committed
      have isPredecessor : idPredecessor (front ++ [number, earlier + (more + 1)]) =
          some (front ++ [number, earlier + more]) := by
        rw [idPredecessor_append, if_pos (by omega)]
        rfl
      obtain ⟨older, isOlder, kind, done, behind⟩ := (lined _ node found isFile).2 _ isPredecessor
      obtain ⟨oldest, isOldest, first, start, before⟩ := ih isOlder kind done
      exact ⟨oldest, isOldest, first, start, before.trans behind⟩

theorem Numbered.last {front : NodeId} {number revision : Nat}
    (numbered : Numbered (front ++ [number, revision])) : 1 ≤ revision := by
  obtain ⟨other, branch, last, -, started, same⟩ := numbered.exists_last
  have ends := congrArg (fun id : NodeId => id.getLast?) same
  simp only [List.getLast?_append_cons, List.getLast?_cons_cons, List.getLast?_singleton,
    Option.some.injEq] at ends
  omega

/-- Also where the successor branches off an earlier revision, that one precedes the clone. -/
theorem Lined.successor (lined : Lined fs) (grounded : Grounded fs) (frozen : Frozen fs) {old id : NodeId}
    {node : NodeRev} (found : fs.node old = some node) (isFile : node.kind = .file)
    (committed : node.rev ≠ none) (chosen : newSuccessorId fs.nodes old = .ok id) :
    Numbered id ∧ ∀ predecessor, idPredecessor id = some predecessor → Precedes fs predecessor node := by
  have numbered := (lined old node found isFile).1
  obtain ⟨front, number, revision, pairs, started, rfl⟩ := numbered.exists_last
  have present := (Filesystem.mem_entries fs _).mpr ⟨node, found⟩
  have choice := newSuccessorId_choice grounded.shaped pairs (grounded.shaped _ present)
  rw [chosen] at choice
  have self : Precedes fs (front ++ [number, revision]) node :=
    ⟨node, found, isFile, committed, NodeRev.behind_self (frozen _ node found committed).1⟩
  cases choice with
  | nextRevision free =>
      refine ⟨numbered.next pairs, fun predecessor isPredecessor => ?_⟩
      rw [(successorFollows_next front number revision).mpr started] at isPredecessor
      cases isPredecessor
      exact self
  | firstBranch taken within isLast =>
      refine ⟨by simpa using numbered.branch le_rfl, fun predecessor isPredecessor => ?_⟩
      rw [(successorFollows_branch front number revision revision 1).mpr rfl] at isPredecessor
      cases isPredecessor
      exact self
  | @nextBranch earlier branch rest taken within notLater isBranch readable isLast =>
      obtain ⟨other, isOther⟩ := (Filesystem.mem_entries fs _).mp isBranch
      have family : (front ++ number :: earlier :: branch :: rest).headD 0 =
          (front ++ [number, revision]).headD 0 := by cases front <;> rfl
      have kind := grounded.kind isOther found family
      have origin := ((lined _ other isOther (kind.trans isFile)).1).of_append pairs
      refine ⟨by simpa using origin.branch (Nat.le_add_left 1 branch), fun predecessor isPredecessor => ?_⟩
      rw [(successorFollows_branch front number earlier earlier (branch + 1)).mpr rfl] at isPredecessor
      cases isPredecessor
      obtain ⟨more, rfl⟩ := Nat.exists_eq_add_of_le notLater
      exact lined.earlier frozen origin.last more found isFile committed

/-- What precedes a file is a committed file, so it stays. -/
theorem Lined.carry (lined : Lined fs) (grounded : Grounded fs) (change : Change risky fs next)
    (lines : ∀ id node, next.node id = some node → node.kind = .file → fs.node id = some node ∨
      (Numbered id ∧ ∀ predecessor, idPredecessor id = some predecessor → Precedes fs predecessor node)) :
    Lined next := by
  intro id node stored isFile
  have line : Numbered id ∧ ∀ predecessor, idPredecessor id = some predecessor →
      Precedes fs predecessor node := by
    rcases lines id node stored isFile with same | changed
    · exact lined id node same isFile
    · exact changed
  refine ⟨line.1, fun predecessor isPredecessor => ?_⟩
  obtain ⟨older, isOlder, kind, committed, behind⟩ := line.2 predecessor isPredecessor
  exact ⟨older, change.stays grounded isOlder committed (Or.inl kind), kind, committed, behind⟩

/-- The first revision of a node has no predecessor. -/
theorem line_newNodeId {id : NodeId} {node : NodeRev} (chosen : newNodeId fs.nodes = .ok id) :
    Numbered id ∧ ∀ predecessor, idPredecessor id = some predecessor → Precedes fs predecessor node := by
  obtain ⟨number, revision, rest, rfl, -⟩ := newNodeId_eq chosen
  refine ⟨⟨number + 1, 1, [], rfl, le_rfl, Branches.nil⟩, fun predecessor isPredecessor => ?_⟩
  rw [idPredecessor_pair, if_neg (lt_irrefl 1)] at isPredecessor
  cases isPredecessor

/-- A rep that is not the old one is later than all reps of committed nodes. -/
theorem NotLater.new (reachable : RepsReachable fs.store) (frozen : Frozen fs) {older : NodeRev} {id : NodeId}
    (isOlder : fs.node id = some older) (committed : older.rev ≠ none) {rep : Option Nat} {depth key : Nat}
    {store : Store} (got : getMutableRep fs.store depth rep = .ok (key, store)) (other : rep ≠ some key) :
    NotLater older.propKey (some key) ∧ NotLater older.dataKey (some key) := by
  have invariant := reachable.invariant
  have isNew : key = fs.store.nextRep := by
    rcases invariant.getMutableRep_replaces got with ⟨same, -⟩ | ⟨isNew, -⟩
    · exact absurd same other
    · exact isNew
  have small (k : Nat) (isKey : older.propKey = some k ∨ older.dataKey = some k) : k ≤ key := by
    obtain ⟨rep, stored, -⟩ := (frozen id older isOlder committed).2 k isKey
    rw [isNew]
    exact (invariant.in_range stored).le
  exact ⟨fun k isKey => ⟨key, rfl, small k (Or.inl isKey)⟩, fun k isKey => ⟨key, rfl, small k (Or.inr isKey)⟩⟩

theorem Lined.step (lined : Lined fs) (grounded : Grounded fs) (frozen : Frozen fs)
    (reachable : RepsReachable fs.store) (change : Change risky fs next) : Lined next := by
  -- one node is put into the table
  have put {store : Store} {id : NodeId} {new : NodeRev} (line : new.kind = .file → Numbered id ∧
      ∀ predecessor, idPredecessor id = some predecessor → Precedes fs predecessor new) :
      ∀ other node, ((fs.setStore store).putNode id new).node other = some node → node.kind = .file →
        fs.node other = some node ∨ (Numbered other ∧ ∀ predecessor,
          idPredecessor other = some predecessor → Precedes fs predecessor node) := by
    intro other node stored isFile
    rw [Filesystem.node_putNode] at stored
    split at stored
    · next same =>
        cases stored
        rw [same]
        exact Or.inr (line isFile)
    · exact Or.inl stored
  -- a file keeps its id, and no rep of it becomes an earlier one
  have edit {id : NodeId} {node new : NodeRev} (found : fs.node id = some node) (kind : new.kind = node.kind)
      (behind : ∀ other older, fs.node other = some older → older.rev ≠ none → older.Behind node →
        older.Behind new) (isFile : new.kind = .file) : Numbered id ∧
        ∀ predecessor, idPredecessor id = some predecessor → Precedes fs predecessor new := by
    obtain ⟨numbered, all⟩ := lined id node found (kind.symm.trans isFile)
    refine ⟨numbered, fun predecessor isPredecessor => ?_⟩
    obtain ⟨older, isOlder, isFile, committed, before⟩ := all predecessor isPredecessor
    exact ⟨older, isOlder, isFile, committed, behind predecessor older isOlder committed before⟩
  have erase {id : NodeId} : ∀ other node, (fs.eraseNode id).node other = some node → node.kind = .file →
      fs.node other = some node ∨ (Numbered other ∧ ∀ predecessor,
        idPredecessor other = some predecessor → Precedes fs predecessor node) :=
    fun other node stored _ => Or.inl (node_of_eraseNode stored)
  refine lined.carry grounded change ?_
  cases change with
  | create kind chosen within => exact @put fs.store _ _ fun _ => line_newNodeId chosen
  | copy origin found chosen within => exact @put fs.store _ _ fun _ => line_newNodeId chosen
  | @succeed id old node found committed chosen within =>
      refine @put fs.store _ _ fun isFile => ?_
      obtain ⟨numbered, all⟩ := lined.successor grounded frozen found isFile committed chosen
      refine ⟨numbered, fun predecessor isPredecessor => ?_⟩
      obtain ⟨older, isOlder, kind, done, behind⟩ := all predecessor isPredecessor
      exact ⟨older, isOlder, kind, done, behind.props, behind.data, behind.edit⟩
  | setProps found mutable sets other =>
      obtain ⟨-, depth, first, second, got, -, -⟩ := sets
      refine put (edit found rfl fun _ older isOlder committed behind => ?_)
      exact ⟨(NotLater.new reachable frozen isOlder committed got other).1, behind.data, behind.edit⟩
  | ownData found mutable got other =>
      refine put (edit found rfl fun _ older isOlder committed behind => ?_)
      exact ⟨behind.props, (NotLater.new reachable frozen isOlder committed got other).2, behind.edit⟩
  | ownEdit found isFile mutable unedited got =>
      refine put (edit found rfl fun _ older isOlder committed behind => ⟨behind.props, behind.data, ?_⟩)
      rintro _ ⟨⟩
      exact (NotLater.new reachable frozen isOlder committed got (by simp)).2
  | finalize found mutable edited =>
      refine @put fs.store _ _ (edit found rfl fun _ older isOlder committed behind => ?_)
      exact ⟨behind.props, behind.edit _ edited, fun _ again => by cases again⟩
  | stabilize rev found mutable finished all =>
      refine @put fs.store _ _ (edit found rfl fun _ older isOlder committed behind => ?_)
      exact ⟨behind.props, behind.data, behind.edit⟩
  | adopt risk shaped isTarget isDir related chosen within =>
      refine @put fs.store _ _ fun isFile => ?_
      rw [isDir] at isFile
      cases isFile
  | remove found mutable => exact erase
  | drop risk found isDir => exact erase
  | _ => exact fun _ _ stored _ => Or.inl stored

end Lines

end Subversion.Fs
