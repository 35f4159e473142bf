/-
This file shows when the longest ancestor and the remainder of a child go by whole components.
-/

import Subversion.Subr.PathJoin

namespace Subversion.Subr

open Delta Lib

/-- The remainder of the second path, if the first one is an ancestor. -/
def isChild (path₁ path₂ : Bytes) : Option Bytes :=
  if path₁ = [] ∨ path₂ = [] then none
  else if path₂.length ≤ path₁.length then none
  else if path₁ <+: path₂ then
    if path₁.getLast? = some separator then some (path₂.drop path₁.length)
    else if path₂[path₁.length]? = some separator then some (path₂.drop (path₁.length + 1))
    else none
  else none

/-- The texts between the separators. The first one is empty in an absolute path, and the only one
in the root. -/
def components (path : Bytes) : List Bytes := (canonicalize path).splitOn separator

/-- Only the root ends in a separator. -/
def pathOf (components : List Bytes) : Bytes :=
  if components = [] then []
  else if canonicalize (joinPath components) = [] then [separator]
  else canonicalize (joinPath components)

/-- The ancestor is the same both ways and has all common components, and a child is joined from its
ancestor and the remainder. -/
structure ByComponents (path₁ path₂ : Bytes) : Prop where
  symmetric : getLongestAncestor path₁ path₂ = getLongestAncestor path₂ path₁
  common : getLongestAncestor path₁ path₂ =
    some (pathOf (sharedPath (components path₁) (components path₂)))
  joins : ∀ rest, isChild path₁ path₂ = some rest → pathJoin path₁ rest = path₂
  child : isChild path₁ path₂ = none ↔
    ¬ (components path₁ <+: components path₂ ∧ components path₁ ≠ components path₂)

/-- Both paths are absolute and have no name in common. -/
def ShareOnlyRoot (path₁ path₂ : Bytes) : Prop :=
  sharedPath (components path₁) (components path₂) ≠ [] ∧
    ∀ component ∈ sharedPath (components path₁) (components path₂), component = []

/-- The second path has another separator directly behind the one that ends the first path. -/
def DoublesSeparator (path₁ path₂ : Bytes) : Prop :=
  ∃ rest, components path₂ = components path₁ ++ [] :: rest

section Pieces

variable {path path₁ path₂ : Bytes}

theorem splitOn_separator (path : Bytes) :
    joinPath (path.splitOn separator) = path ∧ ∀ piece ∈ path.splitOn separator, separator ∉ piece := by
  induction path with
  | nil => exact ⟨rfl, by simp⟩
  | cons byte path ih =>
      obtain ⟨joins, free⟩ := ih
      rw [List.splitOn_cons_eq_if_modifyHead]
      cases pieces : path.splitOn separator with
      | nil => exact absurd pieces (List.splitOn_ne_nil separator path)
      | cons first rest =>
          rw [pieces] at joins free
          by_cases isSeparator : byte = separator
          · subst isSeparator
            rw [if_pos (beq_self_eq_true _)]
            refine ⟨?_, List.forall_mem_cons.mpr ⟨List.not_mem_nil, free⟩⟩
            rw [joinPath, belowPath_cons, ← joins]
            rfl
          · rw [if_neg (by simpa using isSeparator), List.modifyHead_cons]
            obtain ⟨firstFree, restFree⟩ := List.forall_mem_cons.mp free
            refine ⟨?_, List.forall_mem_cons.mpr ⟨?_, restFree⟩⟩
            · rw [← joins]
              rfl
            · rw [List.mem_cons, not_or]
              exact ⟨Ne.symm isSeparator, firstFree⟩

theorem joinPath_splitOn (path : Bytes) : joinPath (path.splitOn separator) = path :=
  (splitOn_separator path).1

theorem separator_notMem_splitOn (path : Bytes) : ∀ piece ∈ path.splitOn separator, separator ∉ piece :=
  (splitOn_separator path).2

/-- The pieces between separators decide about the ancestor, even in a path that is not canonical. -/
theorem getLongestAncestor_splitOn (nonempty₁ : path₁ ≠ []) (nonempty₂ : path₂ ≠ []) :
    getLongestAncestor path₁ path₂ =
      some (canonicalize (joinPath
        (sharedPath (path₁.splitOn separator) (path₂.splitOn separator)))) := by
  have joins₁ := joinPath_splitOn path₁
  have joins₂ := joinPath_splitOn path₂
  have free₁ := separator_notMem_splitOn path₁
  have free₂ := separator_notMem_splitOn path₂
  rw [getLongestAncestor, if_neg (by simp [nonempty₁, nonempty₂])]
  cases pieces₁ : path₁.splitOn separator with
  | nil => exact absurd pieces₁ (List.splitOn_ne_nil separator path₁)
  | cons first₁ rest₁ =>
      cases pieces₂ : path₂.splitOn separator with
      | nil => exact absurd pieces₂ (List.splitOn_ne_nil separator path₂)
      | cons first₂ rest₂ =>
          rw [pieces₁] at joins₁ free₁
          rw [pieces₂] at joins₂ free₂
          obtain ⟨firstFree₁, restFree₁⟩ := List.forall_mem_cons.mp free₁
          obtain ⟨firstFree₂, restFree₂⟩ := List.forall_mem_cons.mp free₂
          rw [← joins₁, ← joins₂, joinPath, joinPath, sharedPath]
          by_cases same : first₁ = first₂
          · subst same
            rw [if_pos rfl, skipCommon_component first₁ firstFree₁, Nat.zero_add,
              commonText_below rest₁ rest₂ first₁ 0 restFree₁ restFree₂]
            rfl
          · obtain ⟨count, skipped, inside⟩ := skipCommon_components_ne
              (afterComponent_belowPath rest₁) (afterComponent_belowPath rest₂)
              first₁ firstFree₁ first₂ firstFree₂ same 0 0
            rw [Nat.zero_add] at skipped
            rw [skipped, commonText, if_neg inside, if_neg same]
            rfl

theorem canonicalize_eq_nil : canonicalize path = [] ↔ ∀ byte ∈ path, byte = separator := by
  simp [canonicalize]

/-- Only empty components leave nothing but separators. -/
theorem canonicalize_joinPath_eq_nil {pieces : List Bytes} (free : ∀ piece ∈ pieces, separator ∉ piece) :
    canonicalize (joinPath pieces) = [] ↔ ∀ piece ∈ pieces, piece = [] := by
  have whole : (∀ byte ∈ joinPath pieces, byte = separator) ↔
      ∀ piece ∈ pieces, ∀ byte ∈ piece, byte = separator := by
    cases pieces with
    | nil => simp [joinPath]
    | cons first rest =>
        simp only [joinPath, belowPath, List.mem_append, List.mem_flatMap, List.mem_cons, or_imp,
          forall_and, forall_eq_or_imp, forall_exists_index, and_imp, forall_eq]
        grind
  rw [canonicalize_eq_nil, whole]
  constructor
  · intro separators piece member
    apply List.eq_nil_iff_forall_not_mem.mpr
    intro byte inside
    rw [separators piece member byte inside] at inside
    exact free piece member inside
  · intro empty piece member byte inside
    rw [empty piece member] at inside
    cases inside

end Pieces

section Children

variable {path path₁ path₂ rest : Bytes}

theorem canonicalize_separator : canonicalize [separator] = [] := by decide

theorem canonicalize_of_canonical (canonical : Canonical path) (other : path ≠ [separator]) :
    canonicalize path = path := by
  rcases canonical with root | isLast
  · exact absurd root other
  · by_cases empty : path = []
    · rw [empty]
      rfl
    · exact canonicalize_of_isRoot (isRoot_of_getLast? empty isLast)

/-- A child is longer than its ancestor by a separator, if the ancestor does not end in one. -/
theorem isChild_eq_some_iff (canonical₁ : Canonical path₁) (canonical₂ : Canonical path₂)
    (nonempty₁ : path₁ ≠ []) (nonempty₂ : path₂ ≠ []) :
    isChild path₁ path₂ = some rest ↔
      rest ≠ [] ∧ path₂ = canonicalize path₁ ++ separator :: rest := by
  rw [isChild, if_neg (by simp [nonempty₁, nonempty₂])]
  by_cases root : path₁ = [separator]
  · subst root
    rw [canonicalize_separator]
    constructor
    · intro found
      split at found
      · cases found
      · next longer =>
          split at found
          · next isPrefix =>
              obtain ⟨more, rfl⟩ := isPrefix
              obtain rfl : more = rest := by simpa using found
              refine ⟨?_, rfl⟩
              rintro rfl
              exact longer (le_refl _)
          · cases found
    · rintro ⟨nonempty, rfl⟩
      simp [nonempty]
  · rw [canonicalize_of_canonical canonical₁ root]
    have noSeparator : path₁.getLast? ≠ some separator := canonical₁.resolve_left root
    constructor
    · intro found
      split at found
      · cases found
      · split at found
        · next isPrefix =>
            obtain ⟨more, rfl⟩ := isPrefix
            rw [List.getElem?_append_right (le_refl _), Nat.sub_self] at found
            split at found
            · next behind =>
                cases more with
                | nil => cases behind
                | cons byte more =>
                    obtain rfl : byte = separator := by simpa using behind
                    obtain rfl : more = rest := by simpa using found
                    refine ⟨?_, rfl⟩
                    rintro rfl
                    rcases canonical₂ with isRoot | isLast
                    · simp [nonempty₁] at isRoot
                    · simp at isLast
            · cases found
        · cases found
    · rintro ⟨nonempty, rfl⟩
      simp [noSeparator]

theorem components_ne_nil (path : Bytes) : components path ≠ [] := List.splitOn_ne_nil _ _

/-- The components of an ancestor come first. -/
theorem components_child (canonical₂ : Canonical path₂) (nonempty : rest ≠ [])
    (child : path₂ = canonicalize path₁ ++ separator :: rest) :
    components path₂ = components path₁ ++ rest.splitOn separator := by
  have other : path₂ ≠ [separator] := by
    rintro root
    rw [child] at root
    have long := congrArg List.length root
    have positive := List.length_pos_iff.mpr nonempty
    simp at long
    omega
  rw [components, canonicalize_of_canonical canonical₂ other, child, components,
    List.splitOn_append_cons_self]

theorem child_of_components (canonical₂ : Canonical path₂) {pieces : List Bytes} (more : pieces ≠ [])
    (split : components path₂ = components path₁ ++ pieces) :
    joinPath pieces ≠ [] ∧ path₂ = canonicalize path₁ ++ separator :: joinPath pieces := by
  have other : path₂ ≠ [separator] := by
    rintro rfl
    have long := congrArg List.length split
    have first := List.length_pos_iff.mpr (components_ne_nil path₁)
    have second := List.length_pos_iff.mpr more
    rw [components, canonicalize_separator, List.length_append] at long
    simp at long
    omega
  have child : path₂ = canonicalize path₁ ++ separator :: joinPath pieces := by
    have joins : joinPath (components path₂) = path₂ := by
      rw [components, joinPath_splitOn, canonicalize_of_canonical canonical₂ other]
    rw [← joins, split, joinPath_append pieces (components_ne_nil path₁), components, joinPath_splitOn]
    cases pieces with
    | nil => exact absurd rfl more
    | cons first rest => rfl
  refine ⟨?_, child⟩
  intro empty
  rw [empty] at child
  rcases canonical₂ with root | isLast
  · exact other root
  · rw [child] at isLast
    simp at isLast

/-- There is a remainder for every path that has more components. -/
theorem isChild_eq_none_iff (canonical₁ : Canonical path₁) (canonical₂ : Canonical path₂)
    (nonempty₁ : path₁ ≠ []) (nonempty₂ : path₂ ≠ []) :
    isChild path₁ path₂ = none ↔
      ¬ (components path₁ <+: components path₂ ∧ components path₁ ≠ components path₂) := by
  have somewhere : (∃ rest, isChild path₁ path₂ = some rest) ↔
      components path₁ <+: components path₂ ∧ components path₁ ≠ components path₂ := by
    constructor
    · rintro ⟨rest, found⟩
      obtain ⟨nonempty, child⟩ :=
        (isChild_eq_some_iff canonical₁ canonical₂ nonempty₁ nonempty₂).mp found
      rw [components_child canonical₂ nonempty child]
      exact ⟨List.prefix_append _ _, fun same =>
        List.splitOn_ne_nil separator rest (List.self_eq_append_right.mp same)⟩
    · rintro ⟨⟨pieces, split⟩, differ⟩
      have more : pieces ≠ [] := by
        rintro rfl
        rw [List.append_nil] at split
        exact differ split
      exact ⟨_, (isChild_eq_some_iff canonical₁ canonical₂ nonempty₁ nonempty₂).mpr
        (child_of_components canonical₂ more split.symm)⟩
  rw [← somewhere, ← Option.isSome_iff_exists, Option.not_isSome_iff_eq_none]

/-- Joining gives back the path, but for a remainder that looks absolute. -/
theorem pathJoin_isChild (canonical₁ : Canonical path₁) (nonempty₁ : path₁ ≠ []) (nonempty : rest ≠ [])
    (child : path₂ = canonicalize path₁ ++ separator :: rest) :
    pathJoin path₁ rest = path₂ ↔ rest.head? ≠ some separator := by
  rw [pathJoin]
  by_cases absolute : rest.head? = some separator
  · rw [if_pos (.inr absolute), child]
    simp only [absolute, ne_eq, not_true_eq_false, iff_false]
    intro same
    have long := congrArg List.length same
    simp at long
    omega
  · rw [if_neg (by simp [nonempty₁, absolute]), if_neg nonempty, child]
    simp only [absolute, ne_eq, not_false_eq_true, iff_true]
    by_cases root : path₁ = [separator]
    · subst root
      rfl
    · rw [if_neg (canonical₁.resolve_left root), canonicalize_of_canonical canonical₁ root]

theorem splitOn_head (nonempty : rest ≠ []) :
    (∃ more, rest.splitOn separator = [] :: more) ↔ rest.head? = some separator := by
  cases rest with
  | nil => exact absurd rfl nonempty
  | cons byte rest =>
      rw [List.splitOn_cons_eq_if_modifyHead]
      by_cases isSeparator : byte = separator
      · simp [isSeparator]
      · cases pieces : rest.splitOn separator with
        | nil => exact absurd pieces (List.splitOn_ne_nil separator rest)
        | cons first others => simp [isSeparator]

/-- All remainders can be joined if no separator is doubled. -/
theorem joins_iff (canonical₁ : Canonical path₁) (canonical₂ : Canonical path₂)
    (nonempty₁ : path₁ ≠ []) (nonempty₂ : path₂ ≠ []) :
    (∀ rest, isChild path₁ path₂ = some rest → pathJoin path₁ rest = path₂) ↔
      ¬ DoublesSeparator path₁ path₂ := by
  constructor
  · rintro joins ⟨more, split⟩
    obtain ⟨nonempty, child⟩ := child_of_components canonical₂ (List.cons_ne_nil [] more) split
    have found := (isChild_eq_some_iff canonical₁ canonical₂ nonempty₁ nonempty₂).mpr ⟨nonempty, child⟩
    apply (pathJoin_isChild canonical₁ nonempty₁ nonempty child).mp (joins _ found)
    cases more with
    | nil => exact absurd rfl nonempty
    | cons first others => rfl
  · intro single rest found
    obtain ⟨nonempty, child⟩ :=
      (isChild_eq_some_iff canonical₁ canonical₂ nonempty₁ nonempty₂).mp found
    rw [pathJoin_isChild canonical₁ nonempty₁ nonempty child]
    intro absolute
    obtain ⟨more, split⟩ := (splitOn_head nonempty).mpr absolute
    exact single ⟨more, by rw [components_child canonical₂ nonempty child, split]⟩

end Children

section Common

variable {path path₁ path₂ : Bytes}

/-- The pieces of the root are empty, with its separator or without. -/
theorem pieces_cases (canonical : Canonical path) :
    components path = path.splitOn separator ∨
      ((∀ piece ∈ components path, piece = []) ∧ ∀ piece ∈ path.splitOn separator, piece = []) := by
  by_cases root : path = [separator]
  · subst root
    exact .inr ⟨by decide, by decide⟩
  · rw [components, canonicalize_of_canonical canonical root]
    exact .inl rfl

/-- All common components are in the ancestor. It is empty if they are. -/
theorem getLongestAncestor_components (canonical₁ : Canonical path₁) (canonical₂ : Canonical path₂)
    (nonempty₁ : path₁ ≠ []) (nonempty₂ : path₂ ≠ []) :
    getLongestAncestor path₁ path₂ =
      some (canonicalize (joinPath (sharedPath (components path₁) (components path₂)))) := by
  rw [getLongestAncestor_splitOn nonempty₁ nonempty₂]
  have nothing {pieces : List Bytes} (empty : ∀ piece ∈ pieces, piece = []) :
      canonicalize (joinPath pieces) = [] := by
    rw [canonicalize_joinPath_eq_nil fun piece member => by simp [empty piece member]]
    exact empty
  rcases pieces_cases canonical₁ with same₁ | ⟨empty₁, split₁⟩
  · rcases pieces_cases canonical₂ with same₂ | ⟨empty₂, split₂⟩
    · rw [same₁, same₂]
    · rw [nothing fun piece member => split₂ piece
          ((sharedPath_prefix_right _ _).subset member),
        nothing fun piece member => empty₂ piece ((sharedPath_prefix_right _ _).subset member)]
  · rw [nothing fun piece member => split₁ piece ((sharedPath_prefix_left _ _).subset member),
      nothing fun piece member => empty₁ piece ((sharedPath_prefix_left _ _).subset member)]

/-- The ancestor is the path of the common components, but for the root. -/
theorem common_iff (canonical₁ : Canonical path₁) (canonical₂ : Canonical path₂)
    (nonempty₁ : path₁ ≠ []) (nonempty₂ : path₂ ≠ []) :
    getLongestAncestor path₁ path₂ =
        some (pathOf (sharedPath (components path₁) (components path₂))) ↔
      ¬ ShareOnlyRoot path₁ path₂ := by
  have free : ∀ piece ∈ sharedPath (components path₁) (components path₂), separator ∉ piece :=
    fun piece member => separator_notMem_splitOn (canonicalize path₁) piece (sharedPath_mem member)
  rw [getLongestAncestor_components canonical₁ canonical₂ nonempty₁ nonempty₂, ShareOnlyRoot, pathOf,
    ← canonicalize_joinPath_eq_nil free]
  by_cases none : sharedPath (components path₁) (components path₂) = []
  · rw [none]
    simp [joinPath, canonicalize]
  · rw [if_neg none]
    by_cases empty : canonicalize (joinPath (sharedPath (components path₁) (components path₂))) = []
    · simp [empty, none]
    · simp [empty]

/-- Both functions go by components, but where only the root is common and where a separator is
doubled. -/
theorem byComponents_iff (path₁ path₂ : Bytes) (canonical₁ : Canonical path₁)
    (canonical₂ : Canonical path₂) (nonempty₁ : path₁ ≠ []) (nonempty₂ : path₂ ≠ []) :
    ByComponents path₁ path₂ ↔ ¬ ShareOnlyRoot path₁ path₂ ∧ ¬ DoublesSeparator path₁ path₂ := by
  rw [← common_iff canonical₁ canonical₂ nonempty₁ nonempty₂,
    ← joins_iff canonical₁ canonical₂ nonempty₁ nonempty₂]
  constructor
  · intro byComponents
    exact ⟨byComponents.common, byComponents.joins⟩
  · rintro ⟨common, joins⟩
    refine ⟨?_, common, joins, isChild_eq_none_iff canonical₁ canonical₂ nonempty₁ nonempty₂⟩
    rw [getLongestAncestor_components canonical₁ canonical₂ nonempty₁ nonempty₂,
      getLongestAncestor_components canonical₂ canonical₁ nonempty₂ nonempty₁, sharedPath_comm]

/-- A directory and a file in it. -/
theorem byComponents_file : ByComponents [47, 97] [47, 97, 47, 98] :=
  (byComponents_iff [47, 97] [47, 97, 47, 98] (by decide) (by decide) (by decide) (by decide)).mpr
    ⟨by
      rintro ⟨-, empty⟩
      exact absurd (empty [97] (by decide)) (by decide), by
      rintro ⟨rest, split⟩
      rw [show components [47, 97, 47, 98] = [[], [97], [98]] by decide,
        show components [47, 97] = [[], [97]] by decide] at split
      simp at split⟩

/-- Two files in the root have an empty ancestor. -/
theorem getLongestAncestor_root :
    (Canonical [47, 97] ∧ Canonical [47, 98] ∧ getLongestAncestor [47, 97] [47, 98] = some [] ∧
      pathOf (sharedPath (components [47, 97]) (components [47, 98])) = [47]) ∧
    ¬ ByComponents [47, 97] [47, 98] :=
  ⟨by decide, fun byComponents => absurd byComponents.common (by decide)⟩

end Common

end Subversion.Subr
