/-
This file shows that the keys of the nodes table are compared by a consistent order.
-/

import Mathlib
import Subversion.Fs.Id

namespace Subversion.Fs

open Delta

/-- The first argument says whether the index of the first difference is even. Without a result, the
code aborts. -/
def compareIdsFrom : Bool → NodeId → NodeId → Option Ordering
  | _, [], [] => some .eq
  | even, [], _ :: _ => if even then some .lt else none
  | even, _ :: _, [] => if even then some .gt else none
  | even, first :: firsts, second :: seconds =>
      if first = second then compareIdsFrom (!even) firsts seconds
      else if even then some (compare first second)
      else
        match firsts, seconds with
        | [], [] => some (compare first second)
        -- a branch comes after all revisions of its node
        | [], _ :: _ => some .lt
        | _ :: _, [] => some .gt
        | _ :: _, _ :: _ => some (compare first second)

/-- The comparison of the table, for any two byte strings. -/
def compareNodesDbts (first second : Bytes) : Option Ordering :=
  match parseNodeRevisionDbt first, parseNodeRevisionDbt second with
  | some one, some two => compareIdsFrom true one two
  | some _, none => some .gt
  | none, some _ => some .lt
  | none, none => some (compareDbt first second)

/-- The order that the documentation gives for node revision ids. -/
inductive SortsBefore : NodeId → NodeId → Prop where
  | number {first second : Nat} (less : first < second) (rest more : NodeId) :
      SortsBefore (first :: rest) (second :: more)
  | revision (number : Nat) {first second : Nat} (less : first < second) :
      SortsBefore [number, first] [number, second]
  | plain (number first second : Nat) {rest : NodeId} (branches : rest ≠ []) :
      SortsBefore [number, first] (number :: second :: rest)
  | earlier (number : Nat) {first second : Nat} (less : first < second) {rest more : NodeId}
      (one : rest ≠ []) (two : more ≠ []) :
      SortsBefore (number :: first :: rest) (number :: second :: more)
  | branch (number revision : Nat) {rest more : NodeId} (before : SortsBefore rest more) :
      SortsBefore (number :: revision :: rest) (number :: revision :: more)

/-- The first key does not come after the second one. -/
def NotAfter (comparison : Bytes → Bytes → Option Ordering) (first second : Bytes) : Prop :=
  comparison first second = some .lt ∨ comparison first second = some .eq

/-- A comparison of keys that never aborts, is a total preorder, and follows the documentation. -/
structure SortsKeys (comparison : Bytes → Bytes → Option Ordering) : Prop where
  compares : ∀ first second, comparison first second ≠ none
  refl : ∀ key, comparison key key = some .eq
  swap : ∀ first second, comparison second first = (comparison first second).map Ordering.swap
  trans : ∀ first second third, NotAfter comparison first second →
    NotAfter comparison second third → NotAfter comparison first third
  same : ∀ first second, comparison first second = some .eq ↔
    (parseNodeRevisionDbt first = none ∧ first = second) ∨
      ∃ id, parseNodeRevisionDbt first = some id ∧ parseNodeRevisionDbt second = some id
  malformed : ∀ first second id, parseNodeRevisionDbt first = none →
    parseNodeRevisionDbt second = some id → comparison first second = some .lt
  documented : ∀ first second one two, parseNodeRevisionDbt first = some one →
    parseNodeRevisionDbt second = some two →
    (comparison first second = some .lt ↔ SortsBefore one two)

/-- The place of a byte string among the keys. -/
def keyPlace (key : Bytes) : Bool ×ₗ List Nat :=
  match parseNodeRevisionDbt key with
  | some id => toLex (true, rank id)
  | none => toLex (false, key.map UInt8.toNat)

section Comparisons

theorem parseComponents_ne_nil {fuel : Nat} {data : Bytes} {id : NodeId}
    (parsed : parseComponents fuel data = some id) : id ≠ [] := by
  cases fuel with
  | zero => cases parsed
  | succ fuel =>
      rw [parseComponents] at parsed
      split at parsed
      · cases parsed
      · cases parsed
        exact List.cons_ne_nil _ _
      · split at parsed
        · obtain ⟨rest, -, rfl⟩ := Option.map_eq_some_iff.mp parsed
          exact List.cons_ne_nil _ _
        · cases parsed

theorem parseNodeRevisionDbt_ne_nil {key : Bytes} {id : NodeId}
    (parsed : parseNodeRevisionDbt key = some id) : id ≠ [] := by
  rw [parseNodeRevisionDbt, parseId] at parsed
  split at parsed
  · cases parsed
  · next found =>
      split at found
      · cases found
      · split at parsed
        · cases parsed
        · cases parsed
          exact parseComponents_ne_nil found

theorem parseNodeRevisionDbt_pairs {key : Bytes} {id : NodeId}
    (parsed : parseNodeRevisionDbt key = some id) : Pairs id := by
  rw [parseNodeRevisionDbt] at parsed
  split at parsed
  · cases parsed
  · split at parsed
    · cases parsed
    · next odd =>
        cases parsed
        exact pairs_of_even id (by omega)

/-- Two node revision ids never differ where only one of them ends in a branch number. -/
theorem compareIdsFrom_pairs {first : NodeId} (pairs : Pairs first) :
    ∀ {second : NodeId}, Pairs second →
      compareIdsFrom true first second = some (compareIds first second) := by
  unfold compareIds
  induction pairs with
  | nil =>
      intro second others
      cases others <;> rfl
  | @cons number revision rest pairs ih =>
      intro second others
      cases others with
      | nil => rfl
      | @cons other later more others =>
          have deeper := ih others
          by_cases same : number = other
          · by_cases equal : revision = later
            · simp [compareIdsFrom, compareFrom, same, equal, deeper]
            · cases rest <;> cases more <;> simp [compareIdsFrom, compareFrom, same, equal]
          · simp [compareIdsFrom, compareFrom, same]

theorem compare_swap (first second : Nat) : compare second first = (compare first second).swap :=
  (Nat.compare_swap first second).symm

theorem compareFrom_swap (first : NodeId) :
    ∀ (even : Bool) (second : NodeId),
      compareFrom even second first = (compareFrom even first second).swap := by
  induction first with
  | nil =>
      intro even second
      cases second <;> rfl
  | cons number rest ih =>
      intro even second
      cases second with
      | nil => rfl
      | cons other more =>
          by_cases same : number = other
          · subst same
            simp only [compareFrom, if_true]
            exact ih _ _
          · have distinct : other ≠ number := Ne.symm same
            have swapped := compare_swap number other
            cases even with
            | true => simp [compareFrom, same, distinct, swapped]
            | false => cases rest <;> cases more <;> simp [compareFrom, same, distinct, swapped]

theorem compareFrom_eq (first : NodeId) :
    ∀ (even : Bool) (second : NodeId), compareFrom even first second = .eq ↔ first = second := by
  induction first with
  | nil =>
      intro even second
      cases second <;> simp [compareFrom]
  | cons number rest ih =>
      intro even second
      cases second with
      | nil => simp [compareFrom]
      | cons other more =>
          by_cases same : number = other
          · simp [compareFrom, same, ih]
          · cases even with
            | true => simp [compareFrom, same]
            | false => cases rest <;> cases more <;> simp [compareFrom, same]

theorem compareDbt_swap (first : Bytes) :
    ∀ second, compareDbt second first = (compareDbt first second).swap := by
  induction first with
  | nil =>
      intro second
      cases second <;> rfl
  | cons byte bytes ih =>
      intro second
      cases second with
      | nil => rfl
      | cons other others =>
          rw [compareDbt, compareDbt]
          by_cases same : byte = other
          · rw [if_pos same, if_pos same.symm, ih]
          · rw [if_neg same, if_neg (Ne.symm same), compare_swap]

theorem compareDbt_eq (first : Bytes) : ∀ second, compareDbt first second = .eq ↔ first = second := by
  induction first with
  | nil =>
      intro second
      cases second <;> simp [compareDbt]
  | cons byte bytes ih =>
      intro second
      cases second with
      | nil => simp [compareDbt]
      | cons other others =>
          rw [compareDbt]
          by_cases same : byte = other
          · rw [if_pos same, ih, same]
            simp
          · have distinct : byte.toNat ≠ other.toNat := fun equal => same (UInt8.toNat_inj.mp equal)
            rw [if_neg same]
            simp [same, distinct]

/-- On well-formed ids, the comparison of the table is the one of byte strings. -/
theorem compareNodesDbts_unparseId (first second : NodeId) :
    compareNodesDbts (unparseId first) (unparseId second) = some (compareNodesKeys first second) := by
  rw [compareNodesDbts, compareNodesKeys]
  cases one : parseNodeRevisionDbt (unparseId first) with
  | none => cases parseNodeRevisionDbt (unparseId second) <;> rfl
  | some id =>
      cases two : parseNodeRevisionDbt (unparseId second) with
      | none => rfl
      | some other =>
          exact compareIdsFrom_pairs (parseNodeRevisionDbt_pairs one) (parseNodeRevisionDbt_pairs two)

theorem cmp_of_lt {P : Type} [LinearOrder P] {first second : P} {one two : Ordering}
    (swap : two = one.swap) (less : one = .lt ↔ first < second) (more : two = .lt ↔ second < first) :
    one = cmp first second := by
  rcases lt_trichotomy first second with before | equal | after
  · rw [less.mpr before, cmp_eq_lt_iff _ _ |>.mpr before]
  · subst equal
    rw [cmp_self_eq_eq]
    cases one with
    | lt => exact absurd (less.mp rfl) (lt_irrefl _)
    | eq => rfl
    | gt => exact absurd (more.mp swap) (lt_irrefl _)
  · have isLess := more.mpr after
    rw [swap] at isLess
    rw [cmp_eq_gt_iff _ _ |>.mpr after]
    cases one with
    | lt => cases isLess
    | eq => cases isLess
    | gt => rfl

end Comparisons

section Places

theorem compareNodesDbts_swap (first second : Bytes) :
    compareNodesDbts second first = (compareNodesDbts first second).map Ordering.swap := by
  rw [compareNodesDbts, compareNodesDbts]
  cases one : parseNodeRevisionDbt first with
  | none =>
      cases two : parseNodeRevisionDbt second with
      | none => exact congrArg some (compareDbt_swap first second)
      | some other => rfl
  | some id =>
      cases two : parseNodeRevisionDbt second with
      | none => rfl
      | some other =>
          have pairs := parseNodeRevisionDbt_pairs one
          have others := parseNodeRevisionDbt_pairs two
          dsimp only
          rw [compareIdsFrom_pairs others pairs, compareIdsFrom_pairs pairs others]
          exact congrArg some (compareFrom_swap id true other)

theorem compareNodesDbts_lt (first second : Bytes) :
    compareNodesDbts first second = some .lt ↔ keyPlace first < keyPlace second := by
  rw [compareNodesDbts, keyPlace, keyPlace]
  cases one : parseNodeRevisionDbt first with
  | none =>
      cases two : parseNodeRevisionDbt second with
      | none => simp [Prod.Lex.toLex_lt_toLex, compareDbt_lt]
      | some other => simp [Prod.Lex.toLex_lt_toLex]
  | some id =>
      cases two : parseNodeRevisionDbt second with
      | none => simp [Prod.Lex.toLex_lt_toLex]
      | some other =>
          have pairs := parseNodeRevisionDbt_pairs one
          have others := parseNodeRevisionDbt_pairs two
          simp [compareIdsFrom_pairs pairs others, Prod.Lex.toLex_lt_toLex, compareIds_lt pairs others]

theorem exists_comparison (first second : Bytes) :
    ∃ order, compareNodesDbts first second = some order := by
  rw [compareNodesDbts]
  cases one : parseNodeRevisionDbt first with
  | none => cases parseNodeRevisionDbt second <;> exact ⟨_, rfl⟩
  | some id =>
      cases two : parseNodeRevisionDbt second with
      | none => exact ⟨_, rfl⟩
      | some other =>
          exact ⟨_, compareIdsFrom_pairs (parseNodeRevisionDbt_pairs one)
            (parseNodeRevisionDbt_pairs two)⟩

/-- Keys are compared by their places. -/
theorem compareNodesDbts_eq (first second : Bytes) :
    compareNodesDbts first second = some (cmp (keyPlace first) (keyPlace second)) := by
  obtain ⟨order, compared⟩ := exists_comparison first second
  have less := compareNodesDbts_lt first second
  have more := compareNodesDbts_lt second first
  rw [compareNodesDbts_swap, compared] at more
  rw [compared] at less ⊢
  exact congrArg some (cmp_of_lt rfl (by simpa using less) (by simpa using more))

theorem compareNodesDbts_same (first second : Bytes) :
    compareNodesDbts first second = some .eq ↔
      (parseNodeRevisionDbt first = none ∧ first = second) ∨
        ∃ id, parseNodeRevisionDbt first = some id ∧ parseNodeRevisionDbt second = some id := by
  rw [compareNodesDbts]
  cases one : parseNodeRevisionDbt first with
  | none =>
      cases two : parseNodeRevisionDbt second with
      | none => simp [compareDbt_eq]
      | some other =>
          have distinct : first ≠ second := by
            rintro rfl
            rw [one] at two
            cases two
          simp [distinct]
  | some id =>
      cases two : parseNodeRevisionDbt second with
      | none => simp
      | some other =>
          have pairs := parseNodeRevisionDbt_pairs one
          have others := parseNodeRevisionDbt_pairs two
          simp only [compareIdsFrom_pairs pairs others, compareIds, Option.some.injEq, compareFrom_eq,
            reduceCtorEq, false_and, false_or, exists_eq_left']
          exact eq_comm

theorem SortsBefore.rank_lt {first second : NodeId} (before : SortsBefore first second) :
    Pairs first → Pairs second → rank first < rank second := by
  induction before with
  | number less rest more =>
      intro pairs others
      cases pairs
      cases others
      rw [rank_eq, rank_eq, List.cons_lt_cons_iff]
      exact Or.inl less
  | revision number less =>
      intro _ _
      simp [rank, List.cons_lt_cons_iff, less]
  | plain number first second branches =>
      intro _ _
      simp [rank_cons number second branches, rank, List.cons_lt_cons_iff]
  | earlier number less one two =>
      intro _ _
      simp [rank_cons _ _ one, rank_cons _ _ two, List.cons_lt_cons_iff, less]
  | @branch number revision rest more before ih =>
      intro pairs others
      cases pairs with
      | cons _ _ pairs =>
          cases others with
          | cons _ _ others =>
              have deeper := ih pairs others
              cases before <;> simpa [rank_eq] using deeper

/-- The documented order is the one of the ranks. -/
theorem sortsBefore_of_rank {first : NodeId} (pairs : Pairs first) :
    ∀ {second : NodeId}, Pairs second → rank first < rank second → first ≠ [] →
      SortsBefore first second := by
  induction pairs with
  | nil => exact fun _ _ nonempty => absurd rfl nonempty
  | @cons number revision rest pairs ih =>
      intro second others less _
      cases others with
      | nil => simp [rank_eq, rank] at less
      | @cons other later more others =>
          rw [rank_eq, rank_eq, List.cons_lt_cons_iff, List.cons_lt_cons_iff,
            List.cons_lt_cons_iff] at less
          rcases less with before | ⟨rfl, less⟩
          · exact SortsBefore.number before _ _
          · by_cases plain : rest = []
            · subst plain
              by_cases ends : more = []
              · subst ends
                simp only [lt_irrefl, false_or, true_and, rank, and_false, or_false] at less
                exact SortsBefore.revision number less
              · exact SortsBefore.plain number revision later ends
            · by_cases ends : more = []
              · simp [plain, ends] at less
              · simp only [plain, ends, if_false, lt_irrefl, false_or, true_and] at less
                rcases less with before | ⟨rfl, deeper⟩
                · exact SortsBefore.earlier number before plain ends
                · exact SortsBefore.branch number revision (ih others deeper plain)

theorem NotAfter.iff_le (first second : Bytes) :
    NotAfter compareNodesDbts first second ↔ keyPlace first ≤ keyPlace second := by
  rw [NotAfter, compareNodesDbts_eq]
  simp only [Option.some.injEq, cmp_eq_lt_iff, cmp_eq_eq_iff]
  exact le_iff_lt_or_eq.symm

end Places

/-- The keys of the nodes table are sorted as documented, and any other byte strings come first. -/
theorem compareNodesDbts_sortsKeys : SortsKeys compareNodesDbts where
  compares := by
    intro first second aborts
    rw [compareNodesDbts_eq] at aborts
    cases aborts
  refl := by
    intro key
    rw [compareNodesDbts_eq, cmp_self_eq_eq]
  swap := compareNodesDbts_swap
  trans := by
    intro first second third one two
    rw [NotAfter.iff_le] at one two ⊢
    exact one.trans two
  same := compareNodesDbts_same
  malformed := by
    intro first second id isMalformed isId
    rw [compareNodesDbts, isMalformed, isId]
  documented := by
    intro first second one two isOne isTwo
    have pairs := parseNodeRevisionDbt_pairs isOne
    have others := parseNodeRevisionDbt_pairs isTwo
    rw [compareNodesDbts, isOne, isTwo]
    dsimp only
    rw [compareIdsFrom_pairs pairs others, Option.some.injEq, compareIds_lt pairs others]
    constructor
    · intro less
      exact sortsBefore_of_rank pairs others less (parseNodeRevisionDbt_ne_nil isOne)
    · intro before
      exact before.rank_lt pairs others

end Subversion.Fs
