/-
This file shows which ids new nodes and successors get.
-/

import Subversion.Fs.NodesTable

namespace Subversion.Fs

open Cursor

section Ranks

/-- The rank of a branch off a revision starts with the ranks of what it branches from. -/
theorem rank_append_lt {front : NodeId} (pairs : Pairs front) {first second : NodeId}
    (one : first ≠ []) (two : second ≠ []) :
    rank (front ++ first) < rank (front ++ second) ↔ rank first < rank second := by
  induction pairs with
  | nil => rfl
  | @cons number revision rest _ ih =>
      rw [List.cons_append, List.cons_append, List.cons_append, List.cons_append,
        rank_cons number revision (List.append_ne_nil_of_right_ne_nil rest one),
        rank_cons number revision (List.append_ne_nil_of_right_ne_nil rest two)]
      simp only [List.cons_lt_cons_iff, lt_self_iff_false, false_or, true_and]
      exact ih

/-- The revisions of a node or branch come before its branches. -/
theorem rank_revision_lt {front : NodeId} (pairs : Pairs front) (number revision later : Nat)
    {rest : NodeId} (nonempty : rest ≠ []) :
    rank (front ++ [number, later]) < rank (front ++ number :: revision :: rest) := by
  rw [rank_append_lt pairs (List.cons_ne_nil _ _) (List.cons_ne_nil _ _),
    rank_cons number revision nonempty]
  simp [rank, List.cons_lt_cons_iff]

/-- Branches off an earlier revision come first. -/
theorem rank_branch_lt {front : NodeId} (pairs : Pairs front) (number : Nat) {earlier later : Nat}
    (less : earlier < later) {rest more : NodeId} (one : rest ≠ []) (two : more ≠ []) :
    rank (front ++ number :: earlier :: rest) < rank (front ++ number :: later :: more) := by
  rw [rank_append_lt pairs (List.cons_ne_nil _ _) (List.cons_ne_nil _ _),
    rank_cons number earlier one, rank_cons number later two]
  simp [List.cons_lt_cons_iff, less]

/-- What stands between two branches off one revision is a branch off it. -/
theorem exists_branch_of_rank_between {front : NodeId} (pairs : Pairs front)
    {low high : NodeId} (lowNonempty : low ≠ []) (highNonempty : high ≠ []) :
    ∀ {key : NodeId}, Pairs key → ¬ rank key < rank (front ++ low) →
      rank key < rank (front ++ high) →
      ∃ number revision rest, key = front ++ number :: revision :: rest := by
  induction pairs with
  | nil =>
      intro key keyPairs above _
      cases keyPairs with
      | nil =>
          -- nothing branches off nothing
          obtain ⟨number, rest, rfl⟩ := List.exists_cons_of_ne_nil lowNonempty
          cases rest with
          | nil => simp [rank] at above
          | cons revision rest => simp [rank, rank_eq] at above
      | @cons number revision rest _ => exact ⟨number, revision, rest, rfl⟩
  | @cons number revision front _ ih =>
      intro key keyPairs above below
      have lowRest : front ++ low ≠ [] := List.append_ne_nil_of_right_ne_nil front lowNonempty
      have highRest : front ++ high ≠ [] := List.append_ne_nil_of_right_ne_nil front highNonempty
      rw [List.cons_append, List.cons_append, rank_cons _ _ lowRest] at above
      rw [List.cons_append, List.cons_append, rank_cons _ _ highRest] at below
      cases keyPairs with
      | nil => simp [rank] at above
      | @cons other later more morePairs =>
          rw [rank_eq] at above below
          simp only [List.cons_lt_cons_iff] at above below
          have ends : more ≠ [] := by
            intro empty
            rw [if_pos empty] at above below
            omega
          rw [if_neg ends] at above below
          obtain rfl : other = number := by omega
          obtain rfl : later = revision := by omega
          simp only [lt_self_iff_false, false_or, true_and] at above below
          obtain ⟨branch, last, rest, rfl⟩ := ih morePairs above below
          exact ⟨branch, last, rest, rfl⟩

/-- Before the first branch off the next revision stand the later revisions and the branches off
this and the earlier revisions. -/
theorem before_first_branch {front : NodeId} (pairs : Pairs front) {number revision : Nat}
    {key : NodeId} (shaped : Shaped key)
    (above : ¬ rank key < rank (front ++ [number, revision + 1]))
    (below : rank key < rank (front ++ [number, revision + 1, 1, 1])) :
    (∃ later, revision + 1 ≤ later ∧ key = front ++ [number, later]) ∨
    ∃ earlier branch rest, earlier ≤ revision ∧
      key = front ++ number :: earlier :: branch :: rest := by
  obtain ⟨other, found, rest, rfl⟩ := exists_branch_of_rank_between pairs (List.cons_ne_nil _ _)
    (List.cons_ne_nil _ _) shaped.pairs above below
  obtain ⟨_, branches⟩ := shaped.of_append pairs
  rw [rank_append_lt pairs (List.cons_ne_nil _ _) (List.cons_ne_nil _ _), rank_eq, rank_eq] at above
  rw [rank_append_lt pairs (List.cons_ne_nil _ _) (List.cons_ne_nil _ _), rank_eq, rank_eq] at below
  simp only [List.cons_lt_cons_iff] at above below
  cases branches with
  | nil =>
      simp [rank] at above below
      obtain rfl : other = number := by omega
      exact Or.inl ⟨found, by omega, rfl⟩
  | @cons branch started rest positive begun _ =>
      simp [rank, rank_eq] at above below
      obtain rfl : other = number := by omega
      refine Or.inr ⟨found, branch, started :: rest, ?_, rfl⟩
      -- the branches off the next revision come after its first one
      by_contra late
      have only : found = revision + 1 := by omega
      simp [only, List.cons_lt_cons_iff] at below
      omega

end Ranks

/-- The ids that are chosen as the successor of a revision, and what the table holds then. -/
inductive SuccessorChoice {V : Type} (table : NodesTable V) (front : NodeId)
    (number revision : Nat) : Except SvnError NodeId → Prop where
  | nextRevision (free : front ++ [number, revision + 1] ∉ table.entries) :
      SuccessorChoice table front number revision (.ok (front ++ [number, revision + 1]))
  | overLimit (taken : front ++ [number, revision + 1] ∈ table.entries)
      (beyond : ¬ WithinLimit (front ++ [number, revision + 1])) (error : SvnError) :
      SuccessorChoice table front number revision (.error error)
  | firstBranch {later : Nat} (taken : front ++ [number, revision + 1] ∈ table.entries)
      (within : WithinLimit (front ++ [number, revision + 1]))
      (isLast : ∀ key ∈ table.entries, WithinLimit key →
        rank key < rank (front ++ [number, revision + 1, 1, 1]) →
        rank key ≤ rank (front ++ [number, later])) :
      SuccessorChoice table front number revision (.ok (front ++ [number, revision, 1, 1]))
  | nextBranch {earlier branch : Nat} {rest : NodeId}
      (taken : front ++ [number, revision + 1] ∈ table.entries)
      (within : WithinLimit (front ++ [number, revision + 1]))
      (notLater : earlier ≤ revision)
      (found : front ++ number :: earlier :: branch :: rest ∈ table.entries)
      (readable : WithinLimit (front ++ number :: earlier :: branch :: rest))
      (isLast : ∀ key ∈ table.entries, WithinLimit key →
        rank key < rank (front ++ [number, revision + 1, 1, 1]) →
        rank key ≤ rank (front ++ number :: earlier :: branch :: rest)) :
      SuccessorChoice table front number revision (.ok (front ++ [number, earlier, branch + 1, 1]))

section Choice

variable {V : Type} {table : NodesTable V}

theorem Shaped.wellFormed {id : NodeId} (shaped : Shaped id) : WellFormed id ↔ WithinLimit id := by
  constructor
  · exact fun wellFormed => wellFormed.2.1
  · intro within
    refine ⟨?_, within, shaped.pairs.even⟩
    obtain ⟨node, revision, rest, rfl, _⟩ := shaped
    exact List.cons_ne_nil _ _

/-- A key that is not malformed stands behind all malformed ones. -/
theorem wellFormed_of_le {first second : NodeId} (wellFormed : WellFormed first)
    (notBefore : position first ≤ position second) : WellFormed second := by
  by_contra malformed
  rw [position, position, if_pos wellFormed, if_neg malformed, Prod.Lex.toLex_le_toLex] at notBefore
  simp at notBefore
  exact absurd notBefore (by decide)

theorem malformed_of_lt {first second : NodeId} (malformed : ¬ WellFormed second)
    (before : position first < position second) : ¬ WellFormed first :=
  fun wellFormed => malformed (wellFormed_of_le wellFormed before.le)

theorem withinLimit_append {front back : NodeId} :
    WithinLimit (front ++ back) ↔ WithinLimit front ∧ WithinLimit back := List.forall_mem_append

/-- The search for the last branch finds the next revision or something behind it. -/
theorem exists_lastBefore {bound next : NodeId} (taken : next ∈ table.entries)
    (before : position next < position bound) :
    ∃ key, lastBefore compareNodesKeys bound table.entries.keys = some key := by
  apply last_of_mem
  rw [List.mem_filter, decide_eq_true_eq]
  exact ⟨AList.mem_keys.mpr taken, (compareNodesKeys_lt _ _).mpr before⟩

theorem unparseId_append {front : NodeId} (nonempty : front ≠ []) {back : NodeId}
    (more : back ≠ []) : unparseId (front ++ back) = unparseId front ++ 46 :: unparseId back := by
  induction front with
  | nil => exact absurd rfl nonempty
  | cons value rest ih =>
      cases rest with
      | nil =>
          obtain ⟨next, others, rfl⟩ := List.exists_cons_of_ne_nil more
          rfl
      | cons next others =>
          have deeper := ih (List.cons_ne_nil _ _)
          simp only [List.cons_append, unparseId] at deeper ⊢
          rw [deeper]
          simp

theorem rank_lt_firstBranch {front : NodeId} (pairs : Pairs front) (number revision : Nat) :
    rank (front ++ [number, revision]) < rank (front ++ [number, revision, 1, 1]) := by
  rw [rank_append_lt pairs (List.cons_ne_nil _ _) (List.cons_ne_nil _ _)]
  simp [rank, List.cons_lt_cons_iff]

theorem withinLimit_firstBranch {id : NodeId} : WithinLimit (id ++ [1, 1]) ↔ WithinLimit id := by
  rw [withinLimit_append]
  exact and_iff_left (by decide)

/-- A branch comes after the revision that it starts from, also among malformed keys. -/
theorem position_lt_firstBranch {front : NodeId} (pairs : Pairs front) (number revision : Nat) :
    position (front ++ [number, revision]) < position (front ++ [number, revision, 1, 1]) := by
  have whole : front ++ [number, revision, 1, 1] = (front ++ [number, revision]) ++ [1, 1] := by simp
  have even := (pairs.append (Pairs.cons number revision Pairs.nil)).even
  have nonempty : front ++ [number, revision] ≠ [] := by simp
  by_cases within : WithinLimit (front ++ [number, revision])
  · rw [position_lt ⟨nonempty, within, even⟩]
    · exact rank_lt_firstBranch pairs number revision
    · rw [whole]
      refine ⟨by simp, withinLimit_firstBranch.mpr within, ?_⟩
      rw [List.length_append]
      simp only [List.length_cons, List.length_nil]
      omega
  · have longer : ¬ WellFormed (front ++ [number, revision, 1, 1]) := by
      intro wellFormed
      rw [whole] at wellFormed
      exact within (withinLimit_firstBranch.mp wellFormed.2.1)
    have shorter : ¬ WellFormed (front ++ [number, revision]) :=
      fun wellFormed => within wellFormed.2.1
    rw [position, position, if_neg shorter, if_neg longer, Prod.Lex.toLex_lt_toLex, whole,
      unparseId_append nonempty (List.cons_ne_nil _ _), List.map_append]
    refine Or.inr ⟨rfl, ?_⟩
    generalize (unparseId (front ++ [number, revision])).map UInt8.toNat = text
    induction text with
    | nil => simp
    | cons byte bytes ih => simpa [List.cons_lt_cons_iff] using ih

/-- Every run of the search for a successor is one of these choices. -/
theorem newSuccessorId_choice (shaped : ∀ key ∈ table.entries, Shaped key) {front : NodeId}
    (pairs : Pairs front) {number revision : Nat}
    (present : Shaped (front ++ [number, revision])) :
    SuccessorChoice table front number revision
      (newSuccessorId table (front ++ [number, revision])) := by
  have even := present.pairs.even
  have nonempty : front ++ [number, revision] ≠ [] := by simp
  have whole : front ++ [number, revision + 1] ++ [1, 1] = front ++ [number, revision + 1, 1, 1] := by
    simp
  rw [newSuccessorId, if_neg (by omega), if_neg nonempty, nextRevision_append, whole]
  cases next : table.entries.lookup (front ++ [number, revision + 1]) with
  | none => exact SuccessorChoice.nextRevision (AList.lookup_eq_none.mp next)
  | some value =>
      have taken : front ++ [number, revision + 1] ∈ table.entries :=
        AList.lookup_isSome.mp (by rw [next]; rfl)
      obtain ⟨key, isLast⟩ := exists_lastBefore taken (position_lt_firstBranch pairs number (revision + 1))
      obtain ⟨member, before, greatest⟩ := lastBefore_spec compareNodesKeys_lt isLast
      have keyPresent := AList.mem_keys.mp member
      have keyShaped := shaped key keyPresent
      have keyNonempty : key ≠ [] := by
        obtain ⟨node, first, rest, rfl, _⟩ := keyShaped
        exact List.cons_ne_nil _ _
      have notBefore := greatest _ (AList.mem_keys.mpr taken)
        (position_lt_firstBranch pairs number (revision + 1))
      dsimp only
      rw [isLast]
      dsimp only
      rw [parseId_unparseId key keyNonempty]
      have boundShaped : Shaped (front ++ [number, revision + 1, 1, 1]) := by
        rw [← whole]
        exact (shaped _ taken).branch (Branches.cons le_rfl le_rfl Branches.nil)
      by_cases within : WithinLimit (front ++ [number, revision + 1])
      · have nextWell := (shaped _ taken).wellFormed.mpr within
        have boundWell : WellFormed (front ++ [number, revision + 1, 1, 1]) := by
          rw [boundShaped.wellFormed, ← whole]
          exact withinLimit_firstBranch.mpr within
        have keyWell := wellFormed_of_le nextWell notBefore
        have keyWithin := keyWell.2.1
        rw [if_pos keyWithin]
        have lastRank : ∀ other ∈ table.entries, WithinLimit other →
            rank other < rank (front ++ [number, revision + 1, 1, 1]) → rank other ≤ rank key := by
          intro other otherPresent otherWithin below
          have otherWell := (shaped other otherPresent).wellFormed.mpr otherWithin
          have less := greatest other (AList.mem_keys.mpr otherPresent)
            ((position_lt otherWell boundWell).mpr below)
          rw [← not_lt, position_lt keyWell otherWell] at less
          exact not_lt.mp less
        rw [← not_lt, position_lt keyWell nextWell] at notBefore
        rw [position_lt keyWell boundWell] at before
        have keyEven := keyWell.2.2
        dsimp only
        rw [if_neg (by omega)]
        obtain ⟨later, behind, rfl⟩ | ⟨earlier, branch, rest, notLater, rfl⟩ :=
          before_first_branch pairs keyShaped notBefore before
        · rw [if_pos (by simp)]
          have shape : front ++ [number, revision] ++ [1, 1] = front ++ [number, revision, 1, 1] := by
            simp
          rw [shape]
          exact SuccessorChoice.firstBranch taken within lastRank
        · rw [if_neg (by simp), if_pos (by simp)]
          have shape : (front ++ number :: earlier :: branch :: rest).take
                (front ++ [number, revision]).length ++
              [(front ++ number :: earlier :: branch :: rest).getD
                (front ++ [number, revision]).length 0 + 1, 1] =
              front ++ [number, earlier, branch + 1, 1] := by
            simp [List.take_append, List.getD_eq_getElem?_getD]
          rw [shape]
          exact SuccessorChoice.nextBranch taken within notLater keyPresent keyWithin lastRank
      · have boundMalformed : ¬ WellFormed (front ++ [number, revision + 1, 1, 1]) := by
          rw [boundShaped.wellFormed, ← whole]
          exact fun longer => within (withinLimit_firstBranch.mp longer)
        have malformed : ¬ WithinLimit key :=
          fun readable => malformed_of_lt boundMalformed before (keyShaped.wellFormed.mpr readable)
        rw [if_neg malformed]
        exact SuccessorChoice.overLimit taken within _

/-- A node revision id splits into its node or branch and its revision number. -/
theorem Shaped.exists_last {id : NodeId} (shaped : Shaped id) :
    ∃ front number revision, Pairs front ∧ id = front ++ [number, revision] := by
  apply shaped.pairs.exists_last
  obtain ⟨node, revision, rest, rfl, _⟩ := shaped
  exact List.cons_ne_nil _ _

theorem newSuccessorId_shaped (shaped : ∀ key ∈ table.entries, Shaped key) {id successor : NodeId}
    (present : id ∈ table.entries) (chosen : newSuccessorId table id = .ok successor) :
    Shaped successor := by
  have idShaped := shaped id present
  obtain ⟨front, number, revision, pairs, rfl⟩ := idShaped.exists_last
  have choice := newSuccessorId_choice shaped pairs idShaped
  rw [chosen] at choice
  cases choice with
  | nextRevision free =>
      rw [← nextRevision_append]
      exact idShaped.nextRevision
  | firstBranch taken within isLast =>
      have whole : front ++ [number, revision, 1, 1] = front ++ [number, revision] ++ [1, 1] := by simp
      rw [whole]
      exact idShaped.branch (Branches.cons le_rfl le_rfl Branches.nil)
  | @nextBranch earlier branch rest taken within notLater found readable isLast =>
      obtain ⟨origin, branches⟩ := (shaped _ found).of_append pairs
      have whole : front ++ [number, earlier, branch + 1, 1] =
          front ++ [number, earlier] ++ [branch + 1, 1] := by simp
      rw [whole]
      exact origin.branch (Branches.cons (Nat.le_add_left _ _) le_rfl Branches.nil)

/-- A new node comes behind the last one. -/
theorem newNodeId_eq {id : NodeId} (chosen : newNodeId table = .ok id) :
    ∃ node revision rest, id = [node + 1, 1] ∧
      last compareNodesKeys table.entries.keys = some (node :: revision :: rest) ∧
      WithinLimit (node :: revision :: rest) := by
  rw [newNodeId] at chosen
  split at chosen
  · cases chosen
  · next key isLast =>
      have nonempty : key ≠ [] := by
        rintro rfl
        cases chosen
      rw [parseId_unparseId key nonempty] at chosen
      by_cases within : WithinLimit key
      · rw [if_pos within] at chosen
        split at chosen
        · next node revision rest read =>
            cases read
            cases chosen
            exact ⟨node, revision, rest, rfl, isLast, within⟩
        · cases chosen
      · rw [if_neg within] at chosen
        cases chosen

theorem mem_put {id key : NodeId} {value : V}
    (present : key ∈ (putNodeRevision table id value).entries) : key = id ∨ key ∈ table.entries :=
  (AList.mem_insert table.entries).mp present

theorem mem_delete {id key : NodeId} {next : NodesTable V}
    (ran : deleteNodesEntry table id = .ok next) (present : key ∈ next.entries) :
    key ∈ table.entries := by
  rw [deleteNodesEntry] at ran
  split at ran
  · cases ran
    exact (AList.mem_erase.mp present).2
  · cases ran

theorem mem_of_get {id : NodeId} {value : V} (read : getNodeRevision table id = .ok value) :
    id ∈ table.entries := by
  rw [getNodeRevision] at read
  split at read
  · next found =>
      exact AList.lookup_isSome.mp (by rw [found]; rfl)
  · cases read

theorem createNode_ok {value : V} {id : NodeId} {next : NodesTable V}
    (ran : createNode table value = .ok (id, next)) :
    newNodeId table = .ok id ∧ next = putNodeRevision table id value := by
  rw [createNode] at ran
  split at ran
  · cases ran
  · next chosen =>
      cases ran
      exact ⟨chosen, rfl⟩

theorem createSuccessor_ok {value : V} {oldId id : NodeId} {next : NodesTable V}
    (ran : createSuccessor table oldId value = .ok (id, next)) :
    newSuccessorId table oldId = .ok id ∧ next = putNodeRevision table id value := by
  rw [createSuccessor] at ran
  split at ran
  · cases ran
  · next chosen =>
      cases ran
      exact ⟨chosen, rfl⟩

theorem renumber_ok {source target id : NodeId} {next : NodesTable V}
    (ran : renumber table source target = .ok (id, next)) :
    newSuccessorId table source = .ok id ∧ ∃ value,
      deleteNodesEntry (putNodeRevision table id value) target = .ok next := by
  rw [renumber] at ran
  split at ran
  · cases ran
  · next chosen =>
      split at ran
      · cases ran
      · next value read =>
          split at ran
          · cases ran
          · next removed =>
              cases ran
              exact ⟨chosen, value, removed⟩

theorem map_snd_ok {result : Except SvnError (NodeId × NodesTable V)} {next : NodesTable V}
    (mapped : result.map Prod.snd = .ok next) : ∃ id, result = .ok (id, next) := by
  cases result with
  | error error => cases mapped
  | ok pair =>
      cases mapped
      exact ⟨pair.1, rfl⟩

/-- An operation adds no key but a new node or a successor. -/
theorem runNodesOp_keys {next : NodesTable V} {op : NodesOp V} (ran : runNodesOp table op = .ok next) :
    ∀ key ∈ next.entries, key ∈ table.entries ∨ newNodeId table = .ok key ∨
      ∃ id ∈ table.entries, newSuccessorId table id = .ok key := by
  intro key present
  cases op with
  | createNode value =>
      obtain ⟨id, created⟩ := map_snd_ok ran
      obtain ⟨chosen, rfl⟩ := createNode_ok created
      obtain rfl | old := mem_put present
      · exact Or.inr (Or.inl chosen)
      · exact Or.inl old
  | createSuccessor oldId value =>
      rw [runNodesOp] at ran
      split at ran
      · cases ran
      · next read =>
          obtain ⟨id, created⟩ := map_snd_ok ran
          obtain ⟨chosen, rfl⟩ := createSuccessor_ok created
          obtain rfl | old := mem_put present
          · exact Or.inr (Or.inr ⟨oldId, mem_of_get read, chosen⟩)
          · exact Or.inl old
  | delete id => exact Or.inl (mem_delete ran present)
  | renumber source target =>
      rw [runNodesOp] at ran
      split at ran
      · cases ran
      · next read =>
          obtain ⟨id, moved⟩ := map_snd_ok ran
          obtain ⟨chosen, value, removed⟩ := renumber_ok moved
          obtain rfl | old := mem_put (mem_delete removed present)
          · exact Or.inr (Or.inr ⟨source, mem_of_get read, chosen⟩)
          · exact Or.inl old

theorem reachable_shaped (reachable : NodesReachable table) : ∀ key ∈ table.entries, Shaped key := by
  induction reachable with
  | start path root =>
      intro key present
      obtain rfl : key = [0, 0] := by
        rw [AList.mem_keys, AList.keys_singleton] at present
        exact List.mem_singleton.mp present
      exact ⟨0, 0, [], rfl, Branches.nil⟩
  | step earlier ran ih =>
      intro key present
      obtain old | created | ⟨id, source, created⟩ := runNodesOp_keys ran key present
      · exact ih key old
      · obtain ⟨node, _, _, rfl, _⟩ := newNodeId_eq created
        exact ⟨node + 1, 1, [], rfl, Branches.nil⟩
      · exact newSuccessorId_shaped ih source created

/-- The successor that is chosen is not in the table. -/
theorem newSuccessorId_fresh (shaped : ∀ key ∈ table.entries, Shaped key)
    (readable : ∀ key ∈ table.entries, WithinLimit key) {id : NodeId} (present : id ∈ table.entries) :
    ∃ successor, newSuccessorId table id = .ok successor ∧ successor ∉ table.entries := by
  have idShaped := shaped id present
  obtain ⟨front, number, revision, pairs, rfl⟩ := idShaped.exists_last
  have choice := newSuccessorId_choice shaped pairs idShaped
  generalize newSuccessorId table (front ++ [number, revision]) = result at choice
  cases choice with
  | nextRevision free => exact ⟨_, rfl, free⟩
  | overLimit taken beyond error => exact absurd (readable _ taken) beyond
  | @firstBranch later taken within isLast =>
      refine ⟨_, rfl, ?_⟩
      intro used
      have notBehind := isLast _ used (readable _ used)
        (rank_branch_lt pairs number (Nat.lt_succ_self revision) (List.cons_ne_nil _ _)
          (List.cons_ne_nil _ _))
      exact notBehind.not_gt (rank_revision_lt pairs number revision later (List.cons_ne_nil _ _))
  | @nextBranch earlier branch rest taken within notLater found _ isLast =>
      refine ⟨_, rfl, ?_⟩
      intro used
      have notBehind := isLast _ used (readable _ used)
        (rank_branch_lt pairs number (Nat.lt_succ_of_le notLater) (List.cons_ne_nil _ _)
          (List.cons_ne_nil _ _))
      -- its branch number is above the one of the last branch
      apply notBehind.not_gt
      rw [rank_append_lt pairs (List.cons_ne_nil _ _) (List.cons_ne_nil _ _),
        rank_cons number earlier (List.cons_ne_nil _ _),
        rank_cons number earlier (List.cons_ne_nil _ _)]
      cases rest <;> simp [rank, rank_eq, List.cons_lt_cons_iff]

/-- A new node is not in the table. -/
theorem newNodeId_fresh (shaped : ∀ key ∈ table.entries, Shaped key)
    (readable : ∀ key ∈ table.entries, WithinLimit key) {id : NodeId}
    (chosen : newNodeId table = .ok id) : id ∉ table.entries := by
  obtain ⟨node, revision, rest, rfl, isLast, _⟩ := newNodeId_eq chosen
  intro used
  have lastUsed := AList.mem_keys.mpr (last_mem isLast)
  have notBehind := le_last compareNodesKeys_lt isLast _ (AList.mem_keys.mp used)
  have lastWell := (shaped _ lastUsed).wellFormed.mpr (readable _ lastUsed)
  have usedWell := (shaped _ used).wellFormed.mpr (readable _ used)
  rw [← not_lt, position_lt lastWell usedWell] at notBehind
  apply notBehind
  rw [rank_eq, rank_eq]
  simp [List.cons_lt_cons_iff]

theorem chosen_fresh (shaped : ∀ key ∈ table.entries, Shaped key)
    (readable : ∀ key ∈ table.entries, WithinLimit key) {id successor : NodeId}
    (present : id ∈ table.entries) (chosen : newSuccessorId table id = .ok successor) :
    successor ∉ table.entries := by
  obtain ⟨other, same, fresh⟩ := newSuccessorId_fresh shaped readable present
  rw [chosen] at same
  cases same
  exact fresh

theorem lookup_delete {id key : NodeId} {next : NodesTable V}
    (ran : deleteNodesEntry table id = .ok next) (other : key ≠ id) :
    next.entries.lookup key = table.entries.lookup key := by
  rw [deleteNodesEntry] at ran
  split at ran
  · cases ran
    exact AList.lookup_erase_ne other
  · cases ran

theorem lookup_put {id key : NodeId} {value : V} (fresh : id ∉ table.entries)
    (present : key ∈ table.entries) :
    (putNodeRevision table id value).entries.lookup key = table.entries.lookup key := by
  apply AList.lookup_insert_ne
  rintro rfl
  exact fresh present

end Choice

/-- In a table whose ids can all be read back, new ids are not in use, so that a new node and a new
successor leave every entry as it is, and a renumbering leaves all but the one that it moves. -/
theorem new_ids_are_fresh {V : Type} {table : NodesTable V} (reachable : NodesReachable table)
    (readable : ∀ key ∈ table.entries, WithinLimit key) :
    (∀ id, newNodeId table = .ok id → id ∉ table.entries) ∧
    (∀ id ∈ table.entries, ∃ successor,
      newSuccessorId table id = .ok successor ∧ successor ∉ table.entries) ∧
    (∀ value id next, createNode table value = .ok (id, next) →
      ∀ key ∈ table.entries, next.entries.lookup key = table.entries.lookup key) ∧
    (∀ oldId ∈ table.entries, ∀ value id next, createSuccessor table oldId value = .ok (id, next) →
      ∀ key ∈ table.entries, next.entries.lookup key = table.entries.lookup key) ∧
    ∀ source ∈ table.entries, ∀ target id next, renumber table source target = .ok (id, next) →
      ∀ key ∈ table.entries, key ≠ target →
        next.entries.lookup key = table.entries.lookup key := by
  have shaped := reachable_shaped reachable
  refine ⟨?_, ?_, ?_, ?_, ?_⟩
  · exact fun id chosen => newNodeId_fresh shaped readable chosen
  · exact fun id present => newSuccessorId_fresh shaped readable present
  · intro value id next created key present
    obtain ⟨chosen, rfl⟩ := createNode_ok created
    exact lookup_put (newNodeId_fresh shaped readable chosen) present
  · intro oldId oldPresent value id next created key present
    obtain ⟨chosen, rfl⟩ := createSuccessor_ok created
    exact lookup_put (chosen_fresh shaped readable oldPresent chosen) present
  · intro source sourcePresent target id next moved key present other
    obtain ⟨chosen, value, removed⟩ := renumber_ok moved
    rw [lookup_delete removed other]
    exact lookup_put (chosen_fresh shaped readable sourcePresent chosen) present

/-- The table of a new filesystem after a node, two successors of it and a branch. -/
def branchedTable : NodesTable Unit :=
  ⟨"repository", ((((AList.singleton [0, 0] ()).insert [1, 1] ()).insert [1, 2] ()).insert
    [1, 3] ()).insert [1, 1, 1, 1] ()⟩

theorem branchedTable_reachable : NodesReachable branchedTable := by
  have root : NodesReachable (⟨"repository", AList.singleton [0, 0] ()⟩ : NodesTable Unit) :=
    NodesReachable.start "repository" ()
  have node := root.step (show runNodesOp _ (.createNode ()) = .ok _ from rfl)
  have second := node.step (show runNodesOp _ (.createSuccessor [1, 1] ()) = .ok _ from rfl)
  have third := second.step (show runNodesOp _ (.createSuccessor [1, 2] ()) = .ok _ from rfl)
  exact third.step (show runNodesOp _ (.createSuccessor [1, 1] ()) = .ok branchedTable from rfl)

theorem new_ids_are_fresh_branched :
    (∀ key ∈ branchedTable.entries, WithinLimit key) ∧
    newNodeId branchedTable = .ok [2, 1] ∧ [2, 1] ∉ branchedTable.entries := by
  have readable : ∀ key ∈ branchedTable.entries, WithinLimit key := by
    intro key present
    have all : ∀ key ∈ branchedTable.entries.keys, WithinLimit key := by decide
    exact all key (AList.mem_keys.mp present)
  have chosen : newNodeId branchedTable = .ok [2, 1] := rfl
  exact ⟨readable, chosen, (new_ids_are_fresh branchedTable_reachable readable).1 [2, 1] chosen⟩

/-- A branch that starts from the revision, directly or not, can be read from the table. -/
def HasBranches {V : Type} (table : NodesTable V) (id : NodeId) : Prop :=
  ∃ rest, rest ≠ [] ∧ id ++ rest ∈ table.entries ∧ WithinLimit (id ++ rest)

/-- The id that is chosen as a successor has the revision as its predecessor. -/
def SuccessorFollows {V : Type} (table : NodesTable V) (id : NodeId) : Prop :=
  ∀ successor, newSuccessorId table id = .ok successor → idPredecessor successor = some id

/-- Either the next revision is free and this one is not revision zero, or it is taken, and the
last branch off this or an earlier revision, if there is one, is off this revision. -/
def SuccessorSound {V : Type} (table : NodesTable V) (id : NodeId) : Prop :=
  if nextRevision id ∈ table.entries then
    WithinLimit (nextRevision id) → (∃ revision < id.getLastD 0,
      HasBranches table (id.dropLast ++ [revision])) → HasBranches table id
  else 1 ≤ id.getLastD 0

theorem idPredecessor_append (front : NodeId) (number revision : Nat) :
    idPredecessor (front ++ [number, revision]) =
      if 1 < revision then some (front ++ [number, revision - 1])
      else if front = [] then none else some front := by
  have whole : front ++ [number, revision] = (front ++ [number]) ++ [revision] := by simp
  rw [idPredecessor, whole, List.getLast?_concat, List.dropLast_concat]
  by_cases later : 1 < revision
  · simp [later]
  · by_cases empty : front = []
    · simp [later, empty]
    · have long := List.length_pos_iff.mpr empty
      simp [later, empty]

theorem successorFollows_next (front : NodeId) (number revision : Nat) :
    idPredecessor (front ++ [number, revision + 1]) = some (front ++ [number, revision]) ↔
      1 ≤ revision := by
  rw [idPredecessor_append]
  by_cases started : 1 < revision + 1
  · rw [if_pos started]
    simp
    omega
  · rw [if_neg started]
    by_cases empty : front = []
    · simp [empty]
      omega
    · simp [empty]
      omega

theorem successorFollows_branch (front : NodeId) (number revision earlier branch : Nat) :
    idPredecessor (front ++ [number, earlier, branch, 1]) = some (front ++ [number, revision]) ↔
      earlier = revision := by
  have whole : front ++ [number, earlier, branch, 1] = (front ++ [number, earlier]) ++ [branch, 1] := by
    simp
  rw [whole, idPredecessor_append]
  simp

/-- A branch off this or an earlier revision stands at or before the last branch. -/
theorem SuccessorChoice.rank_le_last {V : Type} {table : NodesTable V} {front : NodeId}
    (pairs : Pairs front) {number revision : Nat} {last : NodeId}
    (isLast : ∀ key ∈ table.entries, WithinLimit key →
      rank key < rank (front ++ [number, revision + 1, 1, 1]) → rank key ≤ rank last)
    {earlier : Nat} (notLater : earlier ≤ revision)
    (branches : HasBranches table (front ++ [number, earlier])) :
    ∃ rest, rest ≠ [] ∧ rank (front ++ number :: earlier :: rest) ≤ rank last := by
  obtain ⟨rest, nonempty, present, within⟩ := branches
  have whole : front ++ [number, earlier] ++ rest = front ++ number :: earlier :: rest := by simp
  rw [whole] at present within
  exact ⟨rest, nonempty, isLast _ present within
    (rank_branch_lt pairs number (Nat.lt_succ_of_le notLater) nonempty (List.cons_ne_nil _ _))⟩

/-- The last branch that is found decides which revision the successor follows. -/
theorem SuccessorChoice.follows_iff {V : Type} {table : NodesTable V} {front : NodeId}
    (pairs : Pairs front) {number revision : Nat} {result : Except SvnError NodeId}
    (choice : SuccessorChoice table front number revision result) :
    (∀ successor, result = .ok successor →
      idPredecessor successor = some (front ++ [number, revision])) ↔
    if front ++ [number, revision + 1] ∈ table.entries then
      WithinLimit (front ++ [number, revision + 1]) →
        (∃ earlier < revision, HasBranches table (front ++ [number, earlier])) →
        HasBranches table (front ++ [number, revision])
    else 1 ≤ revision := by
  have only : ∀ id, (∀ successor, (.ok id : Except SvnError NodeId) = .ok successor →
      idPredecessor successor = some (front ++ [number, revision])) ↔
      idPredecessor id = some (front ++ [number, revision]) := by
    intro id
    constructor
    · exact fun all => all id rfl
    · rintro follows _ ⟨⟩
      exact follows
  cases choice with
  | nextRevision free => rw [if_neg free, only, successorFollows_next]
  | overLimit taken beyond error =>
      rw [if_pos taken]
      exact ⟨fun _ within => absurd within beyond, fun _ _ impossible => nomatch impossible⟩
  | @firstBranch later taken within isLast =>
      rw [if_pos taken, only, successorFollows_branch]
      -- the last key before the bound is a revision, and there are no branches
      refine ⟨fun _ _ branched => ?_, fun _ => rfl⟩
      obtain ⟨earlier, less, branches⟩ := branched
      obtain ⟨rest, nonempty, notBehind⟩ := rank_le_last pairs isLast less.le branches
      exact absurd (rank_revision_lt pairs number earlier later nonempty) notBehind.not_gt
  | @nextBranch last branch rest taken within notLater found readable isLast =>
      rw [if_pos taken, only, successorFollows_branch]
      have lastBranches : HasBranches table (front ++ [number, last]) := by
        refine ⟨branch :: rest, List.cons_ne_nil _ _, ?_, ?_⟩
        · simpa using found
        · simpa using readable
      constructor
      · rintro rfl _ _
        exact lastBranches
      · intro sound
        by_contra differs
        have less : last < revision := by omega
        obtain ⟨more, nonempty, notBehind⟩ :=
          rank_le_last pairs isLast le_rfl (sound within ⟨last, less, lastBranches⟩)
        exact absurd (rank_branch_lt pairs number less (List.cons_ne_nil branch rest) nonempty)
          notBehind.not_gt

/-- A successor is chosen unless the next revision is taken and over the limit. -/
theorem SuccessorChoice.ok_iff {V : Type} {table : NodesTable V} {front : NodeId}
    {number revision : Nat} {result : Except SvnError NodeId}
    (choice : SuccessorChoice table front number revision result) :
    (∃ successor, result = .ok successor) ↔
      (front ++ [number, revision + 1] ∈ table.entries →
        WithinLimit (front ++ [number, revision + 1])) := by
  cases choice with
  | nextRevision free => exact ⟨fun _ taken => absurd taken free, fun _ => ⟨_, rfl⟩⟩
  | overLimit taken beyond error =>
      exact ⟨fun ⟨_, chosen⟩ => (nomatch chosen), fun within => absurd (within taken) beyond⟩
  | firstBranch taken within isLast => exact ⟨fun _ _ => within, fun _ => ⟨_, rfl⟩⟩
  | nextBranch taken within notLater found readable isLast =>
      exact ⟨fun _ _ => within, fun _ => ⟨_, rfl⟩⟩

/-- The successor that is chosen names the revision as its predecessor just when the last branch
that is found is not off an earlier revision. -/
theorem successor_follows_iff {V : Type} {table : NodesTable V} (reachable : NodesReachable table)
    {id : NodeId} (present : id ∈ table.entries) :
    (SuccessorFollows table id ↔ SuccessorSound table id) ∧
    ((∃ successor, newSuccessorId table id = .ok successor) ↔
      (nextRevision id ∈ table.entries → WithinLimit (nextRevision id))) := by
  have shaped := reachable_shaped reachable
  have idShaped := shaped id present
  obtain ⟨front, number, revision, pairs, rfl⟩ := idShaped.exists_last
  have choice := newSuccessorId_choice shaped pairs idShaped
  have whole : front ++ [number, revision] = (front ++ [number]) ++ [revision] := by simp
  have revisionNumber : (front ++ [number, revision]).getLastD 0 = revision := by
    rw [whole, List.getLastD_concat]
  have others : ∀ earlier, (front ++ [number, revision]).dropLast ++ [earlier] =
      front ++ [number, earlier] := by
    intro earlier
    rw [whole, List.dropLast_concat, List.append_assoc, List.singleton_append]
  constructor
  · unfold SuccessorFollows SuccessorSound
    simp only [nextRevision_append, revisionNumber, others]
    exact choice.follows_iff pairs
  · rw [nextRevision_append]
    exact choice.ok_iff

theorem successor_follows_iff_branched :
    SuccessorFollows branchedTable [1, 1] ↔ SuccessorSound branchedTable [1, 1] :=
  (successor_follows_iff branchedTable_reachable
    (AList.mem_keys.mpr (show [1, 1] ∈ branchedTable.entries.keys by decide))).1

/-- The second revision of a node has a branch of the first one as its successor. -/
theorem successor_branches_elsewhere :
    NodesReachable branchedTable ∧ [1, 2] ∈ branchedTable.entries.keys ∧
    newSuccessorId branchedTable [1, 2] = .ok [1, 1, 2, 1] ∧
    idPredecessor [1, 1, 2, 1] = some [1, 1] ∧ ¬ SuccessorFollows branchedTable [1, 2] := by
  have chosen : newSuccessorId branchedTable [1, 2] = .ok [1, 1, 2, 1] := rfl
  refine ⟨branchedTable_reachable, by decide, chosen, rfl, ?_⟩
  intro follows
  exact absurd (follows _ chosen) (by decide)

end Subversion.Fs
