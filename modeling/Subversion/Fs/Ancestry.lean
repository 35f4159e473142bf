/-
This file compares ancestors, parents and distances of node revision ids with their predecessors.
-/

import Subversion.Lib.ParentTrees
import Subversion.Fs.NodeIds

namespace Subversion.Fs

open ParentTrees

/-- The first argument says whether the index of the first difference is even. Behind the end of the
parent, the code looks one place too far for the number of a first revision. -/
def isParentFrom : Bool → NodeId → NodeId → Bool
  | even, first :: firsts, second :: seconds =>
      if first = second then isParentFrom (!even) firsts seconds
      else !even && second = first + 1 && seconds = [] && firsts = []
  | true, [], [_, _, number] => number = 1
  | _, _, _ => false

def idIsParent (parent child : NodeId) : Bool := isParentFrom true parent child

/-- Revision numbers start at one. -/
inductive Revised : NodeId → Prop where
  | nil : Revised []
  | cons (number : Nat) {revision : Nat} {rest : NodeId} (started : 1 ≤ revision)
      (revised : Revised rest) : Revised (number :: revision :: rest)

/-- The last id that both ids come from. It is empty for different nodes. -/
def nearestCommon : NodeId → NodeId → NodeId
  | first :: revision :: rest, second :: other :: more =>
      if first = second then
        first :: min revision other :: (if revision = other then nearestCommon rest more else [])
      else []
  | _, _ => []

/-- A node revision id in which revision and branch numbers start at one. -/
def Numbered (id : NodeId) : Prop :=
  ∃ node revision rest, id = node :: revision :: rest ∧ 1 ≤ revision ∧ Branches rest

abbrev RevisionId := { id : NodeId // Numbered id }

section Predecessors

theorem Branches.revised {id : NodeId} (branches : Branches id) : Revised id := by
  induction branches with
  | nil => exact Revised.nil
  | cons _ started _ ih => exact Revised.cons _ started ih

theorem Numbered.revised {id : NodeId} (numbered : Numbered id) : Revised id := by
  obtain ⟨node, revision, rest, rfl, started, branches⟩ := numbered
  exact Revised.cons node started branches.revised

theorem idPredecessor_pair (number revision : Nat) :
    idPredecessor [number, revision] = if 1 < revision then some [number, revision - 1] else none := by
  have split := idPredecessor_append [] number revision
  rw [List.nil_append, if_pos rfl] at split
  exact split

/-- The predecessor is taken at the end of the id. -/
theorem idPredecessor_cons (number revision : Nat) {rest : NodeId} (nonempty : rest ≠ [])
    (pairs : Pairs rest) :
    idPredecessor (number :: revision :: rest) =
      some (number :: revision :: (idPredecessor rest).getD []) := by
  obtain ⟨front, last, final, -, rfl⟩ := pairs.exists_last nonempty
  rw [← List.cons_append, ← List.cons_append, idPredecessor_append, idPredecessor_append]
  by_cases later : 1 < final
  · simp [later]
  · by_cases empty : front = []
    · simp [later, empty]
    · simp [later, empty]

/-- The predecessor of the end of an id, where the end of a branch is the empty one. -/
def cut (rest : NodeId) : NodeId := (idPredecessor rest).getD []

theorem cut_pair (number revision : Nat) :
    cut [number, revision] = if 1 < revision then [number, revision - 1] else [] := by
  rw [cut, idPredecessor_pair]
  split <;> rfl

theorem cut_cons (number revision : Nat) {rest : NodeId} (nonempty : rest ≠ []) (pairs : Pairs rest) :
    cut (number :: revision :: rest) = number :: revision :: cut rest := by
  rw [cut, idPredecessor_cons number revision nonempty pairs]
  rfl

theorem Revised.pairs {id : NodeId} (revised : Revised id) : Pairs id := by
  induction revised with
  | nil => exact Pairs.nil
  | cons number _ _ ih => exact Pairs.cons number _ ih

theorem Branches.cut {rest : NodeId} (branches : Branches rest) : Branches (cut rest) := by
  induction branches with
  | nil => exact Branches.nil
  | @cons branch revision rest positive started branches ih =>
      by_cases empty : rest = []
      · subst empty
        rw [cut_pair]
        split
        · next later => exact Branches.cons positive (by omega) Branches.nil
        · exact Branches.nil
      · rw [cut_cons branch revision empty branches.pairs]
        exact Branches.cons positive started ih

theorem distanceFromPrefix_cut {rest : NodeId} (revised : Revised rest) (nonempty : rest ≠ []) :
    distanceFromPrefix rest = distanceFromPrefix (cut rest) + 1 := by
  induction revised with
  | nil => exact absurd rfl nonempty
  | @cons number revision rest started revised ih =>
      by_cases empty : rest = []
      · subst empty
        rw [cut_pair]
        split
        · simp only [distanceFromPrefix]
          omega
        · simp only [distanceFromPrefix]
          omega
      · rw [cut_cons number revision empty revised.pairs, distanceFromPrefix, distanceFromPrefix,
          ih empty]
        omega

theorem idIsAncestor_nil (id : NodeId) : idIsAncestor id [] = true ↔ id = [] := by
  cases id <;> simp [idIsAncestor]

theorem idIsAncestor_pairs (number revision other later : Nat) (rest more : NodeId) :
    idIsAncestor (number :: revision :: rest) (other :: later :: more) = true ↔
      number = other ∧ (revision < later ∧ rest = [] ∨ revision = later ∧
        idIsAncestor rest more = true) := by
  rw [idIsAncestor]
  by_cases same : number = other
  · rcases Nat.lt_trichotomy revision later with earlier | equal | above
    · simp [same, Nat.not_lt_of_gt earlier, earlier, Nat.ne_of_lt earlier]
    · simp [same, equal]
    · simp [same, above, Nat.not_lt_of_gt above, Nat.ne_of_gt above]
  · simp [same]

/-- An ancestor is the id itself or an ancestor of its predecessor. -/
theorem idIsAncestor_cut {older : NodeId} (first : Revised older) {rest : NodeId}
    (second : Revised rest) (nonempty : rest ≠ []) :
    idIsAncestor older rest = true ↔ older = rest ∨ idIsAncestor older (cut rest) = true := by
  induction second generalizing older with
  | nil => exact absurd rfl nonempty
  | @cons number revision rest started revised ih =>
      cases first with
      | nil => simp [idIsAncestor]
      | @cons other earlier more begun others =>
          rw [idIsAncestor_pairs]
          by_cases empty : rest = []
          · subst empty
            rw [cut_pair, idIsAncestor_nil]
            split
            · rw [idIsAncestor_pairs, idIsAncestor_nil]
              by_cases ends : more = []
              · simp only [ends, List.cons.injEq, and_true]
                omega
              · simp [ends]
            · rw [idIsAncestor_nil]
              by_cases ends : more = []
              · simp only [ends, List.cons.injEq, and_true, reduceCtorEq, or_false]
                omega
              · simp [ends]
          · rw [cut_cons number revision empty revised.pairs, idIsAncestor_pairs, ih others empty]
            simp only [List.cons.injEq]
            tauto

theorem Numbered.cases {id : NodeId} (numbered : Numbered id) :
    idPredecessor id = none ∨ Numbered (cut id) ∧ idPredecessor id = some (cut id) := by
  obtain ⟨node, revision, rest, rfl, started, branches⟩ := numbered
  by_cases empty : rest = []
  · subst empty
    rw [idPredecessor_pair, cut_pair]
    split
    · next later => exact Or.inr ⟨⟨node, revision - 1, [], rfl, by omega, Branches.nil⟩, rfl⟩
    · exact Or.inl rfl
  · have end' := idPredecessor_cons node revision empty branches.pairs
    rw [cut_cons node revision empty branches.pairs, end']
    exact Or.inr ⟨⟨node, revision, _, rfl, started, branches.cut⟩, rfl⟩

end Predecessors

section Distances

theorem distanceBehindPrefix_nil (id : NodeId) : distanceBehindPrefix id [] = distanceFromPrefix id := by
  rw [distanceBehindPrefix]
  · simp [distanceFromPrefix]
  · simp

theorem distanceBehindPrefix_nil_left (id : NodeId) :
    distanceBehindPrefix [] id = distanceFromPrefix id := by
  rw [distanceBehindPrefix]
  · simp [distanceFromPrefix]
  · simp

theorem idIsAncestor_nearestCommon {first : NodeId} (one : Revised first) :
    ∀ {second : NodeId}, Revised second →
      idIsAncestor (nearestCommon first second) first = true ∧
        idIsAncestor (nearestCommon first second) second = true := by
  induction one with
  | nil =>
      intro second two
      simp [nearestCommon, idIsAncestor]
  | @cons number revision rest started revised ih =>
      intro second two
      cases two with
      | nil => simp [nearestCommon, idIsAncestor]
      | @cons other later more begun others =>
          rw [nearestCommon]
          by_cases same : number = other
          · rw [if_pos same, idIsAncestor_pairs, idIsAncestor_pairs]
            by_cases equal : revision = later
            · rw [if_pos equal]
              have deeper := ih others
              simp [same, equal, deeper]
            · rw [if_neg equal]
              simp only [same, idIsAncestor, true_and, and_true]
              omega
          · simp [same, idIsAncestor]

theorem distanceFromPrefix_nearestCommon {common : NodeId} (revised : Revised common) :
    ∀ {first second : NodeId}, Revised first → Revised second → idIsAncestor common first = true →
      idIsAncestor common second = true →
      distanceFromPrefix common ≤ distanceFromPrefix (nearestCommon first second) := by
  induction revised with
  | nil =>
      intro first second _ _ _ _
      simp [distanceFromPrefix]
  | @cons number revision rest started revised ih =>
      intro first second one two below beyond
      cases one with
      | nil => simp [idIsAncestor] at below
      | @cons other later more begun others =>
          cases two with
          | nil => simp [idIsAncestor] at beyond
          | @cons another last most _ farther =>
              rw [idIsAncestor_pairs] at below beyond
              obtain ⟨rfl, below⟩ := below
              obtain ⟨rfl, beyond⟩ := beyond
              rw [nearestCommon, if_pos rfl, distanceFromPrefix, distanceFromPrefix]
              by_cases equal : later = last
              · subst equal
                rw [if_pos rfl]
                rcases below with ⟨less, rfl⟩ | ⟨rfl, below⟩
                · simp only [distanceFromPrefix]
                  omega
                · rcases beyond with ⟨less, _⟩ | ⟨_, beyond⟩
                  · omega
                  · have deeper := ih others farther below beyond
                    omega
              · rw [if_neg equal]
                have ends : rest = [] := by
                  rcases below with ⟨_, ends⟩ | ⟨rfl, _⟩
                  · exact ends
                  · rcases beyond with ⟨_, ends⟩ | ⟨same, _⟩
                    · exact ends
                    · exact absurd same equal
                subst ends
                simp only [distanceFromPrefix]
                omega

/-- The way from one id to the other goes through the last id that both come from. -/
theorem distanceBehindPrefix_add {first : NodeId} (one : Revised first) :
    ∀ {second : NodeId}, Revised second →
      distanceBehindPrefix first second + 2 * distanceFromPrefix (nearestCommon first second) =
        distanceFromPrefix first + distanceFromPrefix second := by
  induction one with
  | nil =>
      intro second two
      rw [distanceBehindPrefix_nil_left]
      simp [nearestCommon, distanceFromPrefix]
  | @cons number revision rest started revised ih =>
      intro second two
      cases two with
      | nil =>
          rw [distanceBehindPrefix_nil]
          simp [nearestCommon, distanceFromPrefix]
      | @cons other later more begun others =>
          have deeper := ih others
          rw [distanceBehindPrefix, nearestCommon, distanceFromPrefix, distanceFromPrefix]
          by_cases same : number = other
          · by_cases equal : revision = later
            · rw [if_pos ⟨same, equal⟩, if_pos same, if_pos equal, distanceFromPrefix]
              omega
            · rw [if_neg fun both => equal both.2, if_pos same, if_pos same, if_neg equal]
              simp only [distanceFromPrefix]
              omega
          · rw [if_neg fun both => same both.1, if_neg same, if_neg same]
            simp [distanceFromPrefix]

theorem Branches.nearestCommon {first : NodeId} (one : Branches first) :
    ∀ {second : NodeId}, Branches second → Branches (nearestCommon first second) := by
  induction one with
  | nil =>
      intro second two
      exact Branches.nil
  | @cons number revision rest positive started branches ih =>
      intro second two
      cases two with
      | nil => exact Branches.nil
      | @cons other later more _ begun others =>
          rw [Fs.nearestCommon]
          split
          · refine Branches.cons positive (by omega) ?_
            split
            · exact ih others
            · exact Branches.nil
          · exact Branches.nil

theorem Numbered.nearestCommon {first second : NodeId} (one : Numbered first) (two : Numbered second)
    (related : first.head? = second.head?) : Numbered (nearestCommon first second) := by
  obtain ⟨node, revision, rest, rfl, started, branches⟩ := one
  obtain ⟨other, later, more, rfl, begun, others⟩ := two
  have same : node = other := Option.some.inj related
  rw [Fs.nearestCommon, if_pos same]
  refine ⟨node, min revision later, _, rfl, by omega, ?_⟩
  split
  · exact branches.nearestCommon others
  · exact Branches.nil

end Distances

namespace RevisionId

/-- The predecessor of a numbered id is numbered. -/
def predecessor (id : RevisionId) : Option RevisionId :=
  (idPredecessor id.val).pmap (fun found numbered => ⟨found, numbered⟩) fun found isFound => by
    rcases id.property.cases with none | ⟨numbered, some⟩
    · rw [none] at isFound
      cases isFound
    · rw [some] at isFound
      cases isFound
      exact numbered

theorem predecessor_eq_some (id found : RevisionId) :
    id.predecessor = some found ↔ idPredecessor id.val = some found.val := by
  rw [predecessor, Option.pmap_eq_some_iff]
  constructor
  · rintro ⟨value, _, isFound, rfl⟩
    exact isFound
  · intro isFound
    exact ⟨found.val, found.property, isFound, rfl⟩

theorem nonempty (id : RevisionId) : id.val ≠ [] := by
  obtain ⟨node, revision, rest, split, -, -⟩ := id.property
  rw [split]
  exact List.cons_ne_nil _ _

theorem cut_eq {id found : RevisionId} (step : id.predecessor = some found) :
    cut id.val = found.val := by
  rw [cut, (predecessor_eq_some id found).mp step]
  rfl

theorem ranked : Ranked predecessor fun id : RevisionId => distanceFromPrefix id.val := by
  intro child found step
  have nearer := distanceFromPrefix_cut child.property.revised child.nonempty
  rw [cut_eq step] at nearer
  exact nearer

theorem isAncestor_step (older : RevisionId) {younger found : RevisionId}
    (step : younger.predecessor = some found) :
    idIsAncestor older.val younger.val = true ↔
      older = younger ∨ idIsAncestor older.val found.val = true := by
  rw [idIsAncestor_cut older.property.revised younger.property.revised younger.nonempty,
    cut_eq step, Subtype.ext_iff]

theorem isAncestor_first (older : RevisionId) {younger : RevisionId}
    (first : idPredecessor younger.val = none) :
    idIsAncestor older.val younger.val = true ↔ older = younger := by
  have ends : cut younger.val = [] := by
    rw [cut, first]
    rfl
  rw [idIsAncestor_cut older.property.revised younger.property.revised younger.nonempty, ends,
    idIsAncestor_nil, Subtype.ext_iff]
  simp [older.nonempty]

theorem exists_predecessor (id : RevisionId) :
    idPredecessor id.val = none ∨ ∃ found, id.predecessor = some found := by
  rcases id.property.cases with first | ⟨numbered, later⟩
  · exact Or.inl first
  · exact Or.inr ⟨⟨_, numbered⟩, (predecessor_eq_some _ _).mpr later⟩

/-- The test for ancestors follows the predecessors. The induction is on the distance to the first
revision of the node. -/
theorem ancestor_iff (older younger : RevisionId) :
    Ancestor predecessor older younger ↔ idIsAncestor older.val younger.val = true := by
  constructor
  · intro ancestor
    induction ancestor using Relation.ReflTransGen.head_induction_on with
    | refl =>
        rcases older.exists_predecessor with first | ⟨found, step⟩
        · exact (isAncestor_first older first).mpr rfl
        · exact (isAncestor_step older step).mpr (Or.inl rfl)
    | head step _ ih => exact (isAncestor_step older step).mpr (Or.inr ih)
  · intro ancestor
    induction distance : distanceFromPrefix younger.val generalizing younger with
    | zero =>
        have positive := distanceFromPrefix_cut younger.property.revised younger.nonempty
        omega
    | succ distance' ih =>
        rcases younger.exists_predecessor with first | ⟨found, step⟩
        · rw [(isAncestor_first older first).mp ancestor]
          exact Relation.ReflTransGen.refl
        · rcases (isAncestor_step older step).mp ancestor with rfl | ancestor
          · exact Relation.ReflTransGen.refl
          · have nearer : distanceFromPrefix younger.val = distanceFromPrefix found.val + 1 :=
              ranked _ _ step
            exact (ih found ancestor (by omega)).head step

theorem ancestor_val (older younger : RevisionId) :
    Ancestor idPredecessor older.val younger.val ↔ Ancestor predecessor older younger := by
  constructor
  · intro ancestor
    generalize isYounger : younger.val = id at ancestor
    induction ancestor using Relation.ReflTransGen.head_induction_on generalizing younger with
    | refl =>
        rw [Subtype.ext isYounger]
        exact Relation.ReflTransGen.refl
    | head step _ ih =>
        rcases younger.exists_predecessor with first | ⟨found, isFound⟩
        · rw [isYounger, step] at first
          cases first
        · have next := (predecessor_eq_some younger found).mp isFound
          rw [isYounger, step] at next
          exact (ih found (Option.some.inj next).symm).head isFound
  · intro ancestor
    induction ancestor with
    | refl => exact Relation.ReflTransGen.refl
    | tail _ step ih => exact ih.tail ((predecessor_eq_some _ _).mp step)

end RevisionId

section Parents

theorem isParentFrom_pairs (number revision other later : Nat) (rest more : NodeId) :
    isParentFrom true (number :: revision :: rest) (other :: later :: more) = true ↔
      number = other ∧ (revision = later ∧ isParentFrom true rest more = true ∨
        later = revision + 1 ∧ more = [] ∧ rest = []) := by
  rw [isParentFrom]
  by_cases same : number = other
  · rw [if_pos same, isParentFrom]
    by_cases equal : revision = later
    · simp [same, equal]
    · simp [same, equal, and_assoc]
  · simp [same]

theorem isParentFrom_end {child : NodeId} (pairs : Pairs child) : isParentFrom true [] child = false := by
  cases pairs with
  | nil => rfl
  | cons number revision pairs => cases pairs <;> rfl

/-- A parent is found when it is the previous revision, and missed when the child starts a branch. -/
theorem cut_eq_iff {child : NodeId} (two : Revised child) :
    ∀ {parent : NodeId}, Revised parent → child ≠ [] →
      (cut child = parent ↔
        isParentFrom true parent child = true ∨ ∃ branch, child = parent ++ [branch, 1]) := by
  induction two with
  | nil => exact fun _ nonempty => absurd rfl nonempty
  | @cons number revision rest started revised ih =>
      intro parent one _
      cases one with
      | nil =>
          rw [isParentFrom_end (Revised.cons number started revised).pairs]
          by_cases empty : rest = []
          · subst empty
            rw [cut_pair]
            split
            · next later =>
                simp
                omega
            · simp
              omega
          · rw [cut_cons number revision empty revised.pairs]
            simp [empty]
      | @cons other earlier more begun others =>
          rw [isParentFrom_pairs]
          by_cases empty : rest = []
          · subst empty
            have none : isParentFrom true more [] = false := by cases more <;> rfl
            rw [cut_pair, none]
            by_cases ends : more = []
            · split
              · simp [ends]
                omega
              · simp [ends]
                omega
            · split <;> simp [ends, Ne.symm ends]
          · rw [cut_cons number revision empty revised.pairs]
            have deeper := ih others empty
            simp only [List.cons.injEq, List.cons_append, deeper, empty, false_and, and_false, or_false]
            constructor
            · rintro ⟨rfl, rfl, found | ⟨branch, split⟩⟩
              · exact Or.inl ⟨rfl, rfl, found⟩
              · exact Or.inr ⟨branch, rfl, rfl, split⟩
            · rintro (⟨rfl, rfl, found⟩ | ⟨branch, rfl, rfl, split⟩)
              · exact ⟨rfl, rfl, Or.inl found⟩
              · exact ⟨rfl, rfl, Or.inr ⟨branch, split⟩⟩

theorem isParentFrom_branch (parent : NodeId) (pairs : Pairs parent) (branch : Nat) :
    isParentFrom true parent (parent ++ [branch, 1]) = false := by
  induction pairs with
  | nil => rfl
  | cons number revision _ ih =>
      have missed := isParentFrom_pairs number revision number revision
      rw [List.cons_append, List.cons_append, Bool.eq_false_iff]
      intro found
      rcases ((missed _ _).mp found).2 with ⟨_, deeper⟩ | ⟨impossible, _⟩
      · rw [ih] at deeper
        cases deeper
      · omega

end Parents

/-- The test for parents agrees with the predecessor except at the first revisions of branches. -/
theorem isParent_agrees_iff (parent child : RevisionId) :
    (idIsParent parent.val child.val = true ↔ idPredecessor child.val = some parent.val) ↔
      ∀ branch, child.val ≠ parent.val ++ [branch, 1] := by
  have step : idPredecessor child.val = some parent.val ↔ cut child.val = parent.val := by
    constructor
    · intro found
      rw [cut, found]
      rfl
    · intro ends
      rcases child.property.cases with first | ⟨-, later⟩
      · rw [cut, first] at ends
        exact absurd ends.symm parent.nonempty
      · rw [later, ends]
  rw [idIsParent, step, cut_eq_iff child.property.revised parent.property.revised child.nonempty]
  constructor
  · intro agrees branch isBranch
    have missed := isParentFrom_branch parent.val parent.property.revised.pairs branch
    rw [isBranch, missed] at agrees
    exact absurd (agrees.mpr (Or.inr ⟨branch, rfl⟩)) Bool.false_ne_true
  · intro plain
    have none : ¬ ∃ branch, child.val = parent.val ++ [branch, 1] := by
      rintro ⟨branch, isBranch⟩
      exact plain branch isBranch
    simp only [none, or_false]

/-- The first branch off a revision is not recognized as its child. -/
theorem first_branch_is_missed :
    ¬ ∀ parent child : RevisionId,
      idIsParent parent.val child.val = true ↔ idPredecessor child.val = some parent.val := by
  intro agrees
  have parent : Numbered [1, 1] := ⟨1, 1, [], rfl, le_rfl, Branches.nil⟩
  have child : Numbered [1, 1, 1, 1] :=
    ⟨1, 1, [1, 1], rfl, le_rfl, Branches.cons le_rfl le_rfl Branches.nil⟩
  have isPredecessor : idPredecessor [1, 1, 1, 1] = some [1, 1] := by decide
  have found : idIsParent [1, 1] [1, 1, 1, 1] = true :=
    (agrees ⟨_, parent⟩ ⟨_, child⟩).mpr isPredecessor
  exact absurd found (by decide)

end Subversion.Fs
