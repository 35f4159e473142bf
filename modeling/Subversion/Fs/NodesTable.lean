/-
This file models the nodes table and the choice of new node revision ids.
-/

import Mathlib.Data.List.AList
import Subversion.Lib.Cursor
import Subversion.Fs.Id

namespace Subversion.Fs

open Cursor

/-- The table of one filesystem. Its path appears in errors. -/
structure NodesTable (V : Type) where
  path : String
  entries : AList fun _ : NodeId => V

def idText (id : NodeId) : String := ".".intercalate (id.map toString)

def errCorruptNodesKey (path : String) : SvnError :=
  ⟨.fsCorrupt, "malformed ID as key in `nodes' table of filesystem `" ++ path ++ "'"⟩

def errCorruptId (path : String) (id : NodeId) : SvnError :=
  ⟨.fsCorrupt, "Corrupt node revision id `" ++ idText id ++ "' appears in filesystem `" ++ path ++
    "'"⟩

def errDanglingId (path : String) (id : NodeId) : SvnError :=
  ⟨.fsIdNotFound, "reference to non-existent node `" ++ idText id ++ "' in filesystem `" ++ path ++
    "'"⟩

section Operations

variable {V : Type}

/-- The first revision of the node behind the last entry. -/
def newNodeId (table : NodesTable V) : Except SvnError NodeId :=
  match last compareNodesKeys table.entries.keys with
  | none => .error ⟨.fsCorrupt,
      "root directory missing from `nodes' table, in filesystem `" ++ table.path ++ "'"⟩
  | some key =>
      match parseId (unparseId key) with
      | some (node :: _ :: _) => .ok [node + 1, 1]
      | _ => .error (errCorruptNodesKey table.path)

def nextRevision (id : NodeId) : NodeId := id.dropLast ++ [id.getLastD 0 + 1]

/-- The next revision if it is free, else the first revision of the next branch. -/
def newSuccessorId (table : NodesTable V) (id : NodeId) : Except SvnError NodeId :=
  if id.length % 2 = 1 then .error (errCorruptId table.path id)
  else if id = [] then .error SvnError.undefinedBehaviour
  else
    match table.entries.lookup (nextRevision id) with
    | none => .ok (nextRevision id)
    | some _ =>
        match lastBefore compareNodesKeys (nextRevision id ++ [1, 1]) table.entries.keys with
        | none => .error ⟨.berkeleyDb, "checking for next node branch"⟩
        | some key =>
            match parseId (unparseId key) with
            | none => .error (errCorruptNodesKey table.path)
            | some lastBranch =>
                if lastBranch.length % 2 = 1 then .error (errCorruptNodesKey table.path)
                else if lastBranch.length = id.length then .ok (id ++ [1, 1])
                else if id.length < lastBranch.length then
                  .ok (lastBranch.take id.length ++ [lastBranch.getD id.length 0 + 1, 1])
                else .error (errCorruptNodesKey table.path)

def getNodeRevision (table : NodesTable V) (id : NodeId) : Except SvnError V :=
  match table.entries.lookup id with
  | some value => .ok value
  | none => .error (errDanglingId table.path id)

def putNodeRevision (table : NodesTable V) (id : NodeId) (value : V) : NodesTable V :=
  { table with entries := table.entries.insert id value }

def deleteNodesEntry (table : NodesTable V) (id : NodeId) : Except SvnError (NodesTable V) :=
  match table.entries.lookup id with
  | some _ => .ok { table with entries := table.entries.erase id }
  | none => .error ⟨.berkeleyDb, "deleting entry from `nodes' table"⟩

def createNode (table : NodesTable V) (value : V) : Except SvnError (NodeId × NodesTable V) :=
  match newNodeId table with
  | .error error => .error error
  | .ok id => .ok (id, putNodeRevision table id value)

def createSuccessor (table : NodesTable V) (oldId : NodeId) (value : V) :
    Except SvnError (NodeId × NodesTable V) :=
  match newSuccessorId table oldId with
  | .error error => .error error
  | .ok id => .ok (id, putNodeRevision table id value)

/-- A merge moves the target to a successor of the source. -/
def renumber (table : NodesTable V) (source target : NodeId) :
    Except SvnError (NodeId × NodesTable V) :=
  match newSuccessorId table source with
  | .error error => .error error
  | .ok successor =>
      match getNodeRevision table target with
      | .error error => .error error
      | .ok value =>
          match deleteNodesEntry (putNodeRevision table successor value) target with
          | .error error => .error error
          | .ok next => .ok (successor, next)

/-- What is done to the keys of the table. -/
inductive NodesOp (V : Type) where
  | createNode (value : V)
  | createSuccessor (oldId : NodeId) (value : V)
  | delete (id : NodeId)
  | renumber (source target : NodeId)

/-- A node is read before it gets a successor. -/
def runNodesOp (table : NodesTable V) : NodesOp V → Except SvnError (NodesTable V)
  | .createNode value => (createNode table value).map Prod.snd
  | .createSuccessor oldId value =>
      match getNodeRevision table oldId with
      | .error error => .error error
      | .ok _ => (createSuccessor table oldId value).map Prod.snd
  | .delete id => deleteNodesEntry table id
  | .renumber source target =>
      match getNodeRevision table source with
      | .error error => .error error
      | .ok _ => (renumber table source target).map Prod.snd

/-- The table of a new filesystem holds the root directory of revision zero. -/
inductive NodesReachable : NodesTable V → Prop where
  | start (path : String) (root : V) :
      NodesReachable ⟨path, AList.singleton [0, 0] root⟩
  | step {table next : NodesTable V} {op : NodesOp V} (earlier : NodesReachable table)
      (ran : runNodesOp table op = .ok next) : NodesReachable next

end Operations

/-- Branch numbers and the revision numbers on branches start at one. -/
inductive Branches : NodeId → Prop where
  | nil : Branches []
  | cons {branch revision : Nat} {rest : NodeId} (positive : 1 ≤ branch) (started : 1 ≤ revision)
      (branches : Branches rest) : Branches (branch :: revision :: rest)

/-- A node number, a revision number, and branches. -/
def Shaped (id : NodeId) : Prop :=
  ∃ node revision rest, id = node :: revision :: rest ∧ Branches rest

section Shapes

theorem Branches.pairs {id : NodeId} (branches : Branches id) : Pairs id := by
  induction branches with
  | nil => exact Pairs.nil
  | cons _ _ _ ih => exact Pairs.cons _ _ ih

theorem Shaped.pairs {id : NodeId} (shaped : Shaped id) : Pairs id := by
  obtain ⟨node, revision, rest, rfl, branches⟩ := shaped
  exact Pairs.cons node revision branches.pairs

theorem Pairs.append {front back : NodeId} (one : Pairs front) (two : Pairs back) :
    Pairs (front ++ back) := by
  induction one with
  | nil => exact two
  | cons number revision _ ih => exact Pairs.cons number revision ih

/-- A node revision id is its node or branch and a revision number. -/
theorem Pairs.exists_last {id : NodeId} (pairs : Pairs id) (nonempty : id ≠ []) :
    ∃ front number revision, Pairs front ∧ id = front ++ [number, revision] := by
  induction pairs with
  | nil => exact absurd rfl nonempty
  | @cons number revision rest pairs ih =>
      by_cases ends : rest = []
      · exact ⟨[], number, revision, Pairs.nil, by rw [ends]; rfl⟩
      · obtain ⟨front, last, final, fronts, rfl⟩ := ih ends
        exact ⟨number :: revision :: front, last, final, Pairs.cons number revision fronts, rfl⟩

theorem Branches.append {front : NodeId} (one : Branches front) {back : NodeId} (two : Branches back) :
    Branches (front ++ back) := by
  induction one with
  | nil => exact two
  | cons positive started _ ih => exact Branches.cons positive started ih

theorem Branches.of_append {front back : NodeId} (pairs : Pairs front)
    (branches : Branches (front ++ back)) : Branches front ∧ Branches back := by
  induction pairs with
  | nil => exact ⟨Branches.nil, branches⟩
  | cons number revision _ ih =>
      cases branches with
      | cons positive started rest =>
          obtain ⟨fronts, backs⟩ := ih rest
          exact ⟨Branches.cons positive started fronts, backs⟩

/-- What follows a node revision id in a longer one is made of branches. -/
theorem Shaped.of_append {front : NodeId} (pairs : Pairs front) {number revision : Nat}
    {rest : NodeId} (shaped : Shaped (front ++ number :: revision :: rest)) :
    Shaped (front ++ [number, revision]) ∧ Branches rest := by
  obtain ⟨node, first, more, split, branches⟩ := shaped
  cases pairs with
  | nil =>
      cases split
      exact ⟨⟨number, revision, [], rfl, Branches.nil⟩, branches⟩
  | @cons _ _ front fronts =>
      cases split
      obtain ⟨earlier, others⟩ := branches.of_append fronts
      cases others with
      | cons positive started later =>
          exact ⟨⟨_, _, _, rfl, earlier.append (Branches.cons positive started Branches.nil)⟩, later⟩

/-- A branch off a node revision has its shape. -/
theorem Shaped.branch {id : NodeId} (shaped : Shaped id) {rest : NodeId} (branches : Branches rest) :
    Shaped (id ++ rest) := by
  obtain ⟨node, revision, more, rfl, earlier⟩ := shaped
  exact ⟨node, revision, more ++ rest, rfl, earlier.append branches⟩

theorem nextRevision_append (front : NodeId) (number revision : Nat) :
    nextRevision (front ++ [number, revision]) = front ++ [number, revision + 1] := by
  have whole : front ++ [number, revision] = (front ++ [number]) ++ [revision] := by simp
  rw [nextRevision, whole, List.dropLast_concat, List.getLastD_concat]
  simp

theorem Shaped.nextRevision {id : NodeId} (shaped : Shaped id) : Shaped (nextRevision id) := by
  obtain ⟨node, revision, rest, rfl, branches⟩ := shaped
  by_cases ends : rest = []
  · subst ends
    exact ⟨node, revision + 1, [], rfl, Branches.nil⟩
  · obtain ⟨front, branch, last, fronts, rfl⟩ := branches.pairs.exists_last ends
    obtain ⟨earlier, others⟩ := branches.of_append fronts
    cases others with
    | cons positive started _ =>
        have whole : node :: revision :: (front ++ [branch, last]) =
            (node :: revision :: front) ++ [branch, last] := rfl
        rw [whole, nextRevision_append]
        exact ⟨node, revision, front ++ [branch, last + 1], rfl,
          earlier.append (Branches.cons positive (Nat.le_add_left _ _) Branches.nil)⟩

end Shapes

end Subversion.Fs
