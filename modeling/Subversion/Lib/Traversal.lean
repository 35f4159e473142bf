/-
This file walks a tree along a list of paths and shows when no directory is entered twice.
-/

import Mathlib.Data.List.Infix
import Mathlib.Data.List.Nodup

namespace Subversion.Lib

variable {α : Type}

/-- A place to go to. A place that is entered stays open until the walk leaves it. -/
structure Visit (α : Type) where
  path : List α
  enters : Bool

/-- The innermost directory that is open after a visit. -/
def Visit.last (visit : Visit α) : List α := if visit.enters then visit.path else visit.path.dropLast

/-- The prefixes of a path that are longer than a given length, the shortest first. -/
def prefixesBeyond (length : Nat) (path : List α) : List (List α) :=
  (List.range' (length + 1) (path.length - length)).map fun count => path.take count

theorem mem_prefixesBeyond {length : Nat} {path found : List α} :
    found ∈ prefixesBeyond length path ↔ found <+: path ∧ length < found.length := by
  rw [prefixesBeyond, List.mem_map]
  constructor
  · rintro ⟨count, inside, rfl⟩
    rw [List.mem_range'_1] at inside
    refine ⟨List.take_prefix count path, ?_⟩
    rw [List.length_take]
    omega
  · rintro ⟨isPrefix, long⟩
    have short := isPrefix.length_le
    refine ⟨found.length, ?_, ?_⟩
    · rw [List.mem_range'_1]
      omega
    · exact (List.prefix_iff_eq_take.mp isPrefix).symm

theorem nodup_prefixesBeyond (length : Nat) (path : List α) : (prefixesBeyond length path).Nodup := by
  rw [prefixesBeyond]
  apply List.Nodup.map_on
  · intro count₁ inside₁ count₂ inside₂ same
    rw [List.mem_range'_1] at inside₁ inside₂
    have lengths := congrArg List.length same
    rw [List.length_take, List.length_take] at lengths
    omega
  · exact List.nodup_range'

/-- A path of which another one is a proper prefix keeps it when its last step is dropped. -/
theorem prefix_dropLast_iff {path longer : List α} :
    path <+: longer.dropLast ∧ longer ≠ [] ↔ path <+: longer ∧ path ≠ longer := by
  constructor
  · rintro ⟨isPrefix, nonempty⟩
    refine ⟨isPrefix.trans (List.dropLast_prefix longer), ?_⟩
    rintro rfl
    have short := isPrefix.length_le
    have positive := List.length_pos_iff.mpr nonempty
    rw [List.length_dropLast] at short
    omega
  · rintro ⟨isPrefix, proper⟩
    obtain ⟨rest, rfl⟩ := isPrefix
    have more : rest ≠ [] := by
      rintro rfl
      exact proper (List.append_nil path).symm
    rw [List.dropLast_append_of_ne_nil more]
    exact ⟨List.prefix_append path rest.dropLast, List.append_ne_nil_of_right_ne_nil path more⟩

theorem prefix_last {path : List α} {visit : Visit α} (inside : path <+: visit.last) :
    path <+: visit.path := by
  rw [Visit.last] at inside
  split at inside
  · exact inside
  · exact inside.trans (List.dropLast_prefix _)

theorem prefix_last_of_proper {path : List α} {visit : Visit α} (inside : path <+: visit.path)
    (proper : path ≠ visit.path) : path <+: visit.last := by
  rw [Visit.last]
  split
  · exact inside
  · exact (prefix_dropLast_iff.mpr ⟨inside, proper⟩).1

variable [DecidableEq α]

def sharedPath : List α → List α → List α
  | first₁ :: rest₁, first₂ :: rest₂ =>
      if first₁ = first₂ then first₁ :: sharedPath rest₁ rest₂ else []
  | _, _ => []

theorem sharedPath_prefix_left (path₁ : List α) : ∀ path₂, sharedPath path₁ path₂ <+: path₁ := by
  induction path₁ with
  | nil => exact fun path₂ => List.prefix_refl _
  | cons first rest ih =>
      intro path₂
      cases path₂ with
      | nil => exact List.nil_prefix
      | cons other others =>
          rw [sharedPath]
          split
          · exact (List.prefix_cons_inj first).mpr (ih others)
          · exact List.nil_prefix

theorem sharedPath_prefix_right (path₁ : List α) : ∀ path₂, sharedPath path₁ path₂ <+: path₂ := by
  induction path₁ with
  | nil => exact fun path₂ => List.nil_prefix
  | cons first rest ih =>
      intro path₂
      cases path₂ with
      | nil => exact List.nil_prefix
      | cons other others =>
          rw [sharedPath]
          split
          · next same =>
              rw [same]
              exact (List.prefix_cons_inj other).mpr (ih others)
          · exact List.nil_prefix

theorem prefix_sharedPath (path : List α) :
    ∀ {path₁ path₂}, path <+: path₁ → path <+: path₂ → path <+: sharedPath path₁ path₂ := by
  induction path with
  | nil => exact fun _ _ => List.nil_prefix
  | cons first rest ih =>
      intro path₁ path₂ left right
      obtain ⟨tail₁, rfl⟩ := left
      obtain ⟨tail₂, rfl⟩ := right
      rw [List.cons_append, List.cons_append, sharedPath, if_pos rfl]
      exact (List.prefix_cons_inj first).mpr
        (ih (List.prefix_append rest tail₁) (List.prefix_append rest tail₂))

theorem sharedPath_comm (path₁ : List α) : ∀ path₂, sharedPath path₁ path₂ = sharedPath path₂ path₁ := by
  induction path₁ with
  | nil =>
      intro path₂
      cases path₂ <;> rfl
  | cons first rest ih =>
      intro path₂
      cases path₂ with
      | nil => rfl
      | cons other others =>
          rw [sharedPath, sharedPath]
          by_cases same : first = other
          · rw [if_pos same, if_pos same.symm, ih, same]
          · rw [if_neg same, if_neg (Ne.symm same)]

/-- What many paths share begins each of them. -/
theorem foldl_sharedPath_below (paths : List (List α)) :
    ∀ path, paths.foldl sharedPath path <+: path ∧
      ∀ other ∈ paths, paths.foldl sharedPath path <+: other := by
  induction paths with
  | nil => exact fun path => ⟨List.prefix_refl path, by simp⟩
  | cons first rest ih =>
      intro path
      obtain ⟨begins, others⟩ := ih (sharedPath path first)
      refine ⟨begins.trans (sharedPath_prefix_left path first), List.forall_mem_cons.mpr ⟨?_, others⟩⟩
      exact begins.trans (sharedPath_prefix_right path first)

theorem prefix_foldl_sharedPath {found : List α} (paths : List (List α)) :
    ∀ {path}, found <+: path → (∀ other ∈ paths, found <+: other) →
      found <+: paths.foldl sharedPath path := by
  induction paths with
  | nil => exact fun begins _ => begins
  | cons first rest ih =>
      intro path begins others
      obtain ⟨beginsFirst, beginsRest⟩ := List.forall_mem_cons.mp others
      exact ih (prefix_sharedPath found begins beginsFirst) beginsRest

/-- The directories that are opened on the way from one place to the next. -/
def opens (last : List α) (visit : Visit α) : List (List α) :=
  prefixesBeyond (sharedPath last visit.path).length visit.path.dropLast ++
    if visit.enters then [visit.path] else []

/-- The directories that are opened during a walk. -/
def walk (last : List α) : List (Visit α) → List (List α)
  | [] => []
  | visit :: visits => opens last visit ++ walk visit.last visits

/-- A directory is opened on the way if the walk comes to it from outside, or if it is entered. -/
theorem mem_opens {last found : List α} {visit : Visit α} :
    found ∈ opens last visit ↔
      (found <+: visit.path ∧ found ≠ visit.path ∧ ¬ found <+: last) ∨
        (visit.enters = true ∧ found = visit.path) := by
  have outside : found <+: visit.path →
      ((sharedPath last visit.path).length < found.length ↔ ¬ found <+: last) := by
    intro isPrefix
    constructor
    · intro long inside
      have short := (prefix_sharedPath found inside isPrefix).length_le
      omega
    · intro outside
      by_contra short
      apply outside
      have common := List.prefix_of_prefix_length_le isPrefix
        (sharedPath_prefix_right last visit.path) (by omega)
      exact common.trans (sharedPath_prefix_left last visit.path)
  rw [opens, List.mem_append, mem_prefixesBeyond]
  constructor
  · rintro (⟨isPrefix, long⟩ | entered)
    · have nonempty : visit.path ≠ [] := by
        rintro empty
        rw [empty] at isPrefix
        rw [List.prefix_nil.mp isPrefix] at long
        simp at long
      obtain ⟨whole, proper⟩ := prefix_dropLast_iff.mp ⟨isPrefix, nonempty⟩
      exact .inl ⟨whole, proper, (outside whole).mp long⟩
    · split at entered
      · next enters => exact .inr ⟨enters, List.mem_singleton.mp entered⟩
      · cases entered
  · rintro (⟨isPrefix, proper, left⟩ | ⟨enters, rfl⟩)
    · exact .inl ⟨(prefix_dropLast_iff.mpr ⟨isPrefix, proper⟩).1, (outside isPrefix).mpr left⟩
    · rw [if_pos enters]
      exact .inr List.mem_cons_self

theorem nodup_opens (last : List α) (visit : Visit α) : (opens last visit).Nodup := by
  rw [opens]
  apply List.Nodup.append (nodup_prefixesBeyond _ _)
  · split
    · exact List.nodup_singleton _
    · exact List.nodup_nil
  · intro found between entered
    split at entered
    · rw [List.mem_singleton.mp entered, mem_prefixesBeyond] at between
      have short := between.1.length_le
      have long := between.2
      rw [List.length_dropLast] at short
      omega
    · cases entered

theorem mem_walk_of_mem_opens {last found : List α} {visit : Visit α} {visits : List (Visit α)}
    (opened : found ∈ opens last visit) : found ∈ walk last (visit :: visits) :=
  List.mem_append_left _ opened

theorem mem_walk_of_mem_walk {last found : List α} {visit : Visit α} {visits : List (Visit α)}
    (opened : found ∈ walk visit.last visits) : found ∈ walk last (visit :: visits) :=
  List.mem_append_right _ opened

/-- A walk that starts outside of a directory and goes below it opens it. -/
theorem mem_walk_of_outside {path : List α} {goal : Visit α} :
    ∀ {visits : List (Visit α)} {last : List α}, ¬ path <+: last → goal ∈ visits →
      path <+: goal.path → (∀ visit ∈ visits, visit.path ≠ path) → path ∈ walk last visits := by
  intro visits
  induction visits with
  | nil => exact fun _ member => by cases member
  | cons visit visits ih =>
      intro last outside member below proper
      by_cases inside : path <+: visit.path
      · apply mem_walk_of_mem_opens
        exact mem_opens.mpr (.inl ⟨inside, (proper visit List.mem_cons_self).symm, outside⟩)
      · apply mem_walk_of_mem_walk
        rcases List.mem_cons.mp member with rfl | later
        · exact absurd below inside
        · exact ih (fun within => inside (prefix_last within)) later below
            fun other isMember => proper other (List.mem_cons_of_mem _ isMember)

/-- A walk that leaves a directory and comes back to it opens it. -/
theorem mem_walk_of_return {path : List α} {away goal : Visit α} :
    ∀ {visits : List (Visit α)} {last : List α}, [away, goal].Sublist visits → ¬ path <+: away.path →
      path <+: goal.path → (∀ visit ∈ visits, visit.path ≠ path) → path ∈ walk last visits := by
  intro visits
  induction visits with
  | nil => exact fun order => by cases order
  | cons visit visits ih =>
      intro last order left below proper
      have properLater : ∀ other ∈ visits, other.path ≠ path :=
        fun other isMember => proper other (List.mem_cons_of_mem _ isMember)
      apply mem_walk_of_mem_walk
      cases order with
      | cons _ later => exact ih later left below properLater
      | cons_cons _ later =>
          exact mem_walk_of_outside (fun within => left (prefix_last within))
            (List.singleton_sublist.mp later) below properLater

/-- Where a directory is opened: at a visit that enters it, or at one that comes to it from outside. -/
theorem exists_of_mem_walk {found : List α} :
    ∀ {visits : List (Visit α)} {last : List α}, found ∈ walk last visits →
      (∃ visit ∈ visits, visit.path = found) ∨
        ∃ goal ∈ visits, found <+: goal.path ∧
          (¬ found <+: last ∨ ∃ away, [away, goal].Sublist visits ∧ ¬ found <+: away.last) := by
  intro visits
  induction visits with
  | nil => exact fun member => by cases member
  | cons visit visits ih =>
      intro last member
      rcases List.mem_append.mp member with here | later
      · rcases mem_opens.mp here with ⟨isPrefix, -, outside⟩ | ⟨-, rfl⟩
        · exact .inr ⟨visit, List.mem_cons_self, isPrefix, .inl outside⟩
        · exact .inl ⟨visit, List.mem_cons_self, rfl⟩
      · rcases ih later with ⟨found, isMember, same⟩ | ⟨goal, isMember, isPrefix, away⟩
        · exact .inl ⟨found, List.mem_cons_of_mem _ isMember, same⟩
        · refine .inr ⟨goal, List.mem_cons_of_mem _ isMember, isPrefix, .inr ?_⟩
          rcases away with outside | ⟨other, order, outside⟩
          · exact ⟨visit, (List.singleton_sublist.mpr isMember).cons_cons visit, outside⟩
          · exact ⟨other, order.cons visit, outside⟩

/-- A list of visits in which no directory comes after what lies below it, and in which the visits
below one directory stand together. -/
structure Ordered (visits : List (Visit α)) : Prop where
  parentFirst : visits.Pairwise fun earlier later => ¬ later.path <+: earlier.path
  together : ∀ first between second, [first, between, second].Sublist visits → ∀ path,
    path <+: first.path → path ≠ first.path → path <+: second.path → path <+: between.path

omit [DecidableEq α] in
theorem Ordered.tail {visit : Visit α} {visits : List (Visit α)} (ordered : Ordered (visit :: visits)) :
    Ordered visits where
  parentFirst := (List.pairwise_cons.mp ordered.parentFirst).2
  together := fun first between second order =>
    ordered.together first between second (order.cons visit)

/-- Every directory is opened once, unless one that was entered is left and comes up again. -/
theorem nodup_walk_iff {visits : List (Visit α)} :
    ∀ {last : List α}, Ordered visits →
      ((walk last visits).Nodup ↔ ∀ entered away goal, [entered, away, goal].Sublist visits →
        entered.enters = true → entered.path <+: goal.path → entered.path <+: away.path) := by
  induction visits with
  | nil =>
      intro last _
      simp [walk]
  | cons visit visits ih =>
      intro last ordered
      obtain ⟨first, -⟩ := List.pairwise_cons.mp ordered.parentFirst
      have properLater : ∀ other ∈ visits, other.path ≠ visit.path := by
        intro other isMember same
        exact first other isMember (same ▸ List.prefix_refl _)
      rw [walk, List.nodup_append', ih ordered.tail]
      constructor
      · rintro ⟨-, rest, disjoint⟩ entered away goal order enters below
        by_contra left
        cases order with
        | cons _ later => exact left (rest entered away goal later enters below)
        | cons_cons _ later =>
            exact disjoint (mem_opens.mpr (.inr ⟨enters, rfl⟩))
              (mem_walk_of_return later left below properLater)
      · intro condition
        refine ⟨nodup_opens last visit, ?_, ?_⟩
        · exact fun entered away goal order => condition entered away goal (order.cons visit)
        · intro found here later
          have outside := exists_of_mem_walk later
          rcases mem_opens.mp here with ⟨isPrefix, proper, -⟩ | ⟨enters, rfl⟩
          · rcases outside with ⟨other, isMember, rfl⟩ | ⟨goal, isMember, below, left | ⟨away, order, left⟩⟩
            · exact first other isMember isPrefix
            · exact left (prefix_last_of_proper isPrefix proper)
            · have inside := ordered.together visit away goal (order.cons_cons visit) found isPrefix
                proper below
              apply left
              apply prefix_last_of_proper inside
              rintro rfl
              exact first away (order.subset List.mem_cons_self) isPrefix
          · rcases outside with ⟨other, isMember, same⟩ | ⟨goal, isMember, below, left | ⟨away, order, left⟩⟩
            · exact properLater other isMember same
            · rw [Visit.last, if_pos enters] at left
              exact left (List.prefix_refl _)
            · have inside := condition visit away goal (order.cons_cons visit) enters below
              apply left
              apply prefix_last_of_proper inside
              exact (properLater away (order.subset List.mem_cons_self)).symm

end Subversion.Lib
