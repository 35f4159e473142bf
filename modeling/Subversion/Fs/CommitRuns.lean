/-
This file shows that commits are serialized, in whatever order the trails of the clients run.
-/

import Subversion.Fs.Revisions

namespace Subversion.Fs

open Trail Transactions

/-- The revision that a call has returned. There is none before its end, nor with an error. -/
def CommitPoint.created : CommitPoint → List Nat
  | .returned (.ok rev) => [rev]
  | _ => []

/-- The trail of a call commits its transaction on top of the youngest revision. -/
structure Commits (call : CommitCall) (fs next : Filesystem) (point : CommitPoint) : Prop where
  before : ∃ youngish, call.point = .commit youngish
  after : point = .returned (.ok fs.revisions.length)
  record : ∃ record, fs.txns.lookup call.txn = some record ∧
    fs.revisions.getLast? = some record.base ∧ next.revisions = fs.revisions ++ [record.root]

section Trails

variable {fs : Filesystem}

theorem retryTxn_reads {A : Type} {trail : Trail A} (reads : Reads trail) (next : A → CommitPoint)
    (failed : SvnError → CommitPoint) : (retryTxn trail next failed fs).2 = fs := by
  unfold retryTxn
  split
  · next value after ran => exact reads fs value after ran
  · rfl

theorem retryTxn_keeps {A : Type} {trail : Trail A}
    (keeps : Keeps (SameRevisions fs.revisions) trail) (next : A → CommitPoint)
    (failed : SvnError → CommitPoint) : (retryTxn trail next failed fs).2.revisions = fs.revisions := by
  unfold retryTxn
  split
  · next value after ran => exact keeps fs rfl value after ran
  · rfl

/-- A call goes on to a point where it has created nothing. -/
theorem retryTxn_created {A : Type} {trail : Trail A} {next : A → CommitPoint}
    {failed : SvnError → CommitPoint} (goesOn : ∀ value, (next value).created = [])
    (fails : ∀ error, (failed error).created = []) :
    (retryTxn trail next failed fs).1.created = [] := by
  unfold retryTxn
  split
  · exact goesOn _
  · exact fails _

/-- A trail of a call commits, or no revision is added. -/
theorem svnFsCommitTxn_commits (order : HashOrder) (depth : Nat) (call : CommitCall) (fs : Filesystem) :
    ((svnFsCommitTxn order depth call.txn call.point fs).2.revisions = fs.revisions ∧
      (svnFsCommitTxn order depth call.txn call.point fs).1.created = call.point.created) ∨
    Commits call fs (svnFsCommitTxn order depth call.txn call.point fs).2
      (svnFsCommitTxn order depth call.txn call.point fs).1 := by
  obtain ⟨txn, point, created⟩ := call
  cases point with
  | youngestRev =>
      refine .inl ⟨?_, retryTxn_created (fun _ => rfl) fun _ => rfl⟩
      exact congrArg Filesystem.revisions (retryTxn_reads reads_youngestRev _ _)
  | revisionRoot youngish =>
      refine .inl ⟨?_, retryTxn_created (fun _ => rfl) fun _ => rfl⟩
      exact congrArg Filesystem.revisions (retryTxn_reads (reads_rootNode _) _ _)
  | getRoot youngish root => exact .inl ⟨rfl, rfl⟩
  | merge youngish root =>
      refine .inl ⟨?_, retryTxn_created (fun _ => rfl) fun _ => rfl⟩
      exact retryTxn_keeps (holding_txnBodyMerge sameRevisions_robust order depth txn root none) _ _
  | commit youngish =>
      rw [svnFsCommitTxn, retryTxn]
      split
      · next rev next ran =>
          obtain ⟨record, found, based, rfl, added⟩ := txnBodyCommit_revisions ran
          exact .inr ⟨⟨youngish, rfl⟩, rfl, record, found, based, added⟩
      · refine .inl ⟨rfl, ?_⟩
        split <;> rfl
  | youngestAgain youngish error =>
      refine .inl ⟨?_, retryTxn_created (fun youngest => ?_) fun _ => rfl⟩
      · exact congrArg Filesystem.revisions (retryTxn_reads reads_youngestRev _ _)
      · split <;> rfl
  | returned result => exact .inl ⟨rfl, rfl⟩

end Trails

section Steps

variable {clients next : Clients}

/-- In a step, the call of some number commits and returns the new revision. -/
def Clients.CommitsAt (clients next : Clients) (index : Nat) : Prop :=
  ∃ call point, clients.calls[index]? = some call ∧ Commits call clients.fs next.fs point ∧
    next.calls[index]? = some ⟨call.txn, point, call.created ++ [clients.fs.revisions.length]⟩

/-- The revisions after the first one were created by the calls that have returned them. -/
structure Clients.Serial (clients : Clients) : Prop where
  started : 0 < clients.fs.revisions.length
  numbers : (clients.calls.flatMap CommitCall.created).Perm
    (List.range' 1 (clients.fs.revisions.length - 1))
  ended : ∀ call ∈ clients.calls, call.created = call.point.created

/-- A call goes on without a new revision. -/
theorem Clients.Serial.idle (serial : clients.Serial) {before after : List CommitCall} {call : CommitCall}
    (calls : clients.calls = before ++ call :: after) {point : CommitPoint}
    (same : point.created = call.point.created) (fs : Filesystem)
    (kept : fs.revisions = clients.fs.revisions) :
    Clients.Serial ⟨fs, clients.streams, before ++ ⟨call.txn, point, call.created⟩ :: after⟩ := by
  obtain ⟨started, numbers, ended⟩ := serial
  rw [calls] at numbers ended
  refine ⟨kept ▸ started, ?_, ?_⟩
  · rw [kept]
    simpa using numbers
  · intro other member
    rcases List.mem_append.mp member with early | late
    · exact ended other (List.mem_append_left _ early)
    · rcases List.mem_cons.mp late with rfl | later
      · exact (ended call (List.mem_append_right _ List.mem_cons_self)).trans same.symm
      · exact ended other (List.mem_append_right _ (.tail _ later))

/-- A call that commits has created nothing before. -/
theorem Clients.Serial.commit (serial : clients.Serial) {before after : List CommitCall}
    {call : CommitCall} (calls : clients.calls = before ++ call :: after) {point : CommitPoint}
    {fs : Filesystem} (commits : Commits call clients.fs fs point) :
    Clients.Serial ⟨fs, clients.streams,
      before ++ ⟨call.txn, point, call.created ++ [clients.fs.revisions.length]⟩ :: after⟩ := by
  obtain ⟨started, numbers, ended⟩ := serial
  obtain ⟨⟨youngish, isCommit⟩, rfl, record, -, -, added⟩ := commits
  rw [calls] at numbers ended
  have nothing : call.created = [] := by
    rw [ended call (List.mem_append_right _ List.mem_cons_self), isCommit]
    rfl
  have length : fs.revisions.length = clients.fs.revisions.length + 1 := by rw [added]; simp
  refine ⟨by rw [length]; omega, ?_, ?_⟩
  · have last : List.range' 1 clients.fs.revisions.length =
        List.range' 1 (clients.fs.revisions.length - 1) ++ [clients.fs.revisions.length] := by
      obtain ⟨count, isCount⟩ := Nat.exists_eq_add_of_lt started
      rw [isCount, Nat.zero_add, Nat.add_sub_cancel, List.range'_concat, Nat.one_mul, Nat.add_comm 1]
    simp only [List.flatMap_append, List.flatMap_cons, nothing, List.nil_append] at numbers ⊢
    rw [length, Nat.add_sub_cancel, last]
    exact List.perm_middle.trans
      ((numbers.cons _).trans (List.perm_append_singleton _ _).symm)
  · intro other member
    rcases List.mem_append.mp member with early | late
    · exact ended other (List.mem_append_left _ early)
    · rcases List.mem_cons.mp late with rfl | later
      · rw [nothing]
        rfl
      · exact ended other (List.mem_append_right _ (.tail _ later))

/-- A step keeps the revisions, or a call commits. -/
theorem ClientStep.serial (step : ClientStep clients next) (serial : clients.Serial) :
    next.Serial ∧ (next.fs.revisions = clients.fs.revisions ∨ ∃ index, clients.CommitsAt next index) := by
  cases step with
  | call txn =>
      obtain ⟨started, numbers, ended⟩ := serial
      refine ⟨⟨started, by simpa using numbers, fun call member => ?_⟩, .inl rfl⟩
      rcases List.mem_append.mp member with old | new
      · exact ended call old
      · rw [List.mem_singleton.mp new]
        rfl
  | advance order depth index =>
      rw [Clients.advance]
      split
      · exact ⟨serial, .inl rfl⟩
      · next call found =>
          obtain ⟨inside, rfl⟩ := List.getElem?_eq_some_iff.mp found
          have outcome := svnFsCommitTxn_commits order depth clients.calls[index] clients.fs
          generalize svnFsCommitTxn order depth clients.calls[index].txn clients.calls[index].point
            clients.fs = result at outcome
          obtain ⟨point, fs⟩ := result
          dsimp only at outcome ⊢
          have calls : clients.calls = clients.calls.take index ++
              clients.calls[index] :: clients.calls.drop (index + 1) := by simp
          have changed (call : CommitCall) : clients.calls.set index call =
              clients.calls.take index ++ call :: clients.calls.drop (index + 1) := by
            rw [List.set_eq_take_append_cons_drop, if_pos inside]
          rcases outcome with ⟨kept, same⟩ | commits
          · have length : fs.revisions.length - clients.fs.revisions.length = 0 := by
              rw [kept, Nat.sub_self]
            rw [length, List.range'_zero, List.append_nil]
            rw [changed]
            exact ⟨serial.idle calls same fs kept, .inl kept⟩
          · obtain ⟨record, -, -, added⟩ := commits.record
            have length : fs.revisions.length - clients.fs.revisions.length = 1 := by rw [added]; simp
            rw [length, List.range'_one]
            refine ⟨?_, .inr ⟨index, clients.calls[index], point, found, commits, ?_⟩⟩
            · rw [changed]
              exact serial.commit calls commits
            · exact List.getElem?_set_self inside
  | @edit order depth op opened fs other allowed ran =>
      have kept : fs.revisions = clients.fs.revisions :=
        keepsRevisions_runFsOp order depth other clients.fs rfl opened fs ran
      obtain ⟨started, numbers, ended⟩ := serial
      exact ⟨⟨kept ▸ started, by rw [kept]; exact numbers, ended⟩, .inl kept⟩

theorem Clients.Reachable.serial (reachable : clients.Reachable) : clients.Serial := by
  obtain ⟨path, run⟩ := reachable
  induction run with
  | refl => exact ⟨Nat.one_pos, List.Perm.refl [], fun call member => absurd member List.not_mem_nil⟩
  | tail _ step ih => exact (step.serial ih).1

/-- The revisions of a run are appended to those before it. -/
theorem Clients.Reachable.appended (reachable : clients.Reachable)
    (run : Relation.ReflTransGen ClientStep clients next) : clients.fs.revisions <+: next.fs.revisions := by
  obtain ⟨path, earlier⟩ := reachable
  induction run with
  | refl => exact List.prefix_rfl
  | @tail middle last run step ih =>
      have serial := Clients.Reachable.serial ⟨path, earlier.trans run⟩
      rcases (step.serial serial).2 with kept | ⟨index, call, point, -, ⟨-, -, record, -, -, added⟩, -⟩
      · rw [kept]
        exact ih
      · rw [added]
        exact ih.trans (List.prefix_append _ _)

end Steps

/-- However the trails of the clients interleave: a revision is only added by the commit of a call,
whose transaction is based on the youngest revision at that moment. The call then returns its number.
Revisions that exist are never changed. Every later revision was created by exactly one call, and a
call that returns an error has created none. -/
theorem svnFsCommitTxn_serializes {clients : Clients} (reachable : clients.Reachable) :
    (∀ next, ClientStep clients next →
      next.fs.revisions = clients.fs.revisions ∨ ∃ index, clients.CommitsAt next index) ∧
    (∀ next, Relation.ReflTransGen ClientStep clients next →
      clients.fs.revisions <+: next.fs.revisions) ∧
    (clients.calls.flatMap CommitCall.created).Perm (List.range' 1 (clients.fs.revisions.length - 1)) ∧
    ∀ call ∈ clients.calls, call.created = call.point.created :=
  ⟨fun _ step => (step.serial reachable.serial).2, fun _ run => reachable.appended run,
    reachable.serial.numbers, reachable.serial.ended⟩

section Rivals

variable {clients : Clients}

theorem Clients.Reachable.attempts (ops : List FsOp)
    (allowed : ∀ op ∈ ops, (∀ streams, op.Allowed streams) ∧ ∀ txn, op ≠ .commitTxn txn)
    (reachable : clients.Reachable) (order : HashOrder) (depth : Nat) :
    Clients.Reachable ⟨(ops.foldl (attempt order depth) (clients.fs, clients.streams)).1,
      (ops.foldl (attempt order depth) (clients.fs, clients.streams)).2, clients.calls⟩ := by
  induction ops generalizing clients with
  | nil => exact reachable
  | cons op ops ih =>
      obtain ⟨always, other⟩ := allowed op List.mem_cons_self
      have rest := @ih ⟨(attempt order depth (clients.fs, clients.streams) op).1,
        (attempt order depth (clients.fs, clients.streams) op).2, clients.calls⟩
        fun op member => allowed op (.tail _ member)
      rw [List.foldl_cons]
      apply rest
      rw [attempt]
      split
      · next opened next ran =>
          obtain ⟨path, run⟩ := reachable
          exact ⟨path, run.tail (.edit other (always _) ran)⟩
      · exact reachable

/-- Two transactions were begun on the first revision, and each made a file. -/
def rivalEdits : List FsOp :=
  [.beginTxn 0, .beginTxn 0, .make (.txn 0) [97] .file, .make (.txn 1) [98] .file]

/-- The calls of this order of numbers go on. -/
def Clients.advances (clients : Clients) (indices : List Nat) : Clients :=
  indices.foldl (fun clients index => clients.advance ⟨id, List.Perm.refl⟩ 9 index) clients

theorem Clients.Reachable.advances (reachable : clients.Reachable) (indices : List Nat) :
    (clients.advances indices).Reachable := by
  induction indices generalizing clients with
  | nil => exact reachable
  | cons index indices ih =>
      obtain ⟨path, run⟩ := reachable
      exact ih ⟨path, run.tail (.advance _ 9 index)⟩

/-- Both calls merge with the first revision before one of them commits, so the other has to merge
once more. -/
def rivals : Clients :=
  Clients.advances ⟨(startedWith rivalEdits).1, (startedWith rivalEdits).2,
    [⟨0, .youngestRev, []⟩, ⟨1, .youngestRev, []⟩]⟩ [0, 1, 0, 1, 0, 1, 0, 1, 0, 1, 1, 1, 1, 1, 1, 1]

theorem rivals_reachable : rivals.Reachable := by
  have edited : Clients.Reachable ⟨(startedWith rivalEdits).1, (startedWith rivalEdits).2, []⟩ := by
    unfold startedWith
    exact @Clients.Reachable.attempts (Clients.start "db") rivalEdits
      (by simp [rivalEdits, FsOp.Allowed]) ⟨"db", .refl⟩ ⟨id, fun _ => List.Perm.refl _⟩ 9
  unfold rivals
  generalize startedWith rivalEdits = edits at edited ⊢
  obtain ⟨path, run⟩ := edited
  have called : Clients.Reachable ⟨edits.1, edits.2, [⟨0, .youngestRev, []⟩, ⟨1, .youngestRev, []⟩]⟩ :=
    ⟨path, (run.tail (.call 0)).tail (.call 1)⟩
  exact called.advances _

/-- The rivals have created one revision each. -/
theorem rivals_serialize : rivals.fs.revisions = [[0, 0], [0, 1], [0, 2]] ∧
    (rivals.calls.flatMap CommitCall.created).Perm [1, 2] := by
  have revisions : rivals.fs.revisions = [[0, 0], [0, 1], [0, 2]] := by decide +kernel
  have numbers := (svnFsCommitTxn_serializes rivals_reachable).2.2.1
  rw [revisions] at numbers
  exact ⟨revisions, numbers⟩

end Rivals

end Subversion.Fs
