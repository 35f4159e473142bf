/-
This file shows when a list of targets is condensed to a base directory and to the targets below it.
-/

import Subversion.Subr.Ancestors

namespace Subversion.Subr

open Delta Lib

inductive FileType where
  | dir
  | reg
  | other
  deriving DecidableEq, Repr

def pathText (path : Bytes) : String := String.ofList (path.map fun byte => Char.ofNat byte.toNat)

/-- The merge is the one of the portable runtime, with the current directory. -/
def getAbsolute (merge : Bytes → Option Bytes) (relative : Bytes) : Except SvnError Bytes :=
  match merge relative with
  | some path => .ok (canonicalize path)
  | none =>
      .error ⟨.badFilename, "Couldn't determine absolute path of " ++ pathText relative ++ "."⟩

/-- The directory and the file in it, if there is one. -/
def splitIfFile (stat : Bytes → Option FileType) (path : Bytes) : Except SvnError (Bytes × Bytes) :=
  match stat path with
  | none =>
      .error ⟨.badFilename, "Couldn't determine if " ++ pathText path ++ " was a file or directory."⟩
  | some .dir => .ok (path, [])
  | some .reg => .ok (splitPath path)
  | some .other =>
      .error ⟨.badFilename, pathText path ++ " is neither a file nor a directory name."⟩

/-- A missing ancestor stays missing. -/
def commonBase : List Bytes → Option Bytes
  | [] => none
  | first :: rest =>
      rest.foldl (fun base target => base.bind fun base => getLongestAncestor base target) (some first)

/-- The inner loop of the first pass, with the marks of one target and of those behind it. -/
def compareAll (target : Bytes) : Bool → List Bytes → List Bool → Bool × List Bool
  | mark, other :: others, removed :: marks =>
      if removed = true then
        let rest := compareAll target mark others marks
        (rest.1, removed :: rest.2)
      else if getLongestAncestor target other = some target then
        let rest := compareAll target mark others marks
        (rest.1, true :: rest.2)
      else if getLongestAncestor target other = some other then
        let rest := compareAll target true others marks
        (rest.1, removed :: rest.2)
      else
        let rest := compareAll target mark others marks
        (rest.1, removed :: rest.2)
  | mark, _, marks => (mark, marks)

/-- When one target is a child of another one, the child is removed. -/
def firstPass : List Bytes → List Bool → List Bool
  | target :: targets, removed :: marks =>
      if removed = true then removed :: firstPass targets marks
      else
        let compared := compareAll target removed targets marks
        compared.1 :: firstPass targets compared.2
  | _, marks => marks

/-- When a target is the same as the base, it is removed. -/
def secondPass (base : Bytes) (targets : List Bytes) (marks : List Bool) : List Bool :=
  List.zipWith (fun target removed => removed || decide (target = base)) targets marks

/-- The targets that are not removed. -/
def kept : List Bytes → List Bool → List Bytes
  | target :: targets, removed :: marks =>
      if removed = true then kept targets marks else target :: kept targets marks
  | _, _ => []

def condensedTargets (base : Bytes) (targets : List Bytes) : List Bytes :=
  let marks := firstPass targets (List.replicate targets.length false)
  (kept targets (secondPass base targets marks)).map (List.drop (base.length + 1))

/-- An error about the base is not returned. A base that is a file is a target in its directory. -/
def splitBase (stat : Bytes → Option FileType) (base : Bytes) (condensed : Option (List Bytes)) :
    Option Bytes × Option (List Bytes) :=
  match splitIfFile stat base with
  | .error _ => (some base, condensed)
  | .ok (dir, file) =>
      (some dir, condensed.map fun targets =>
        if isEmptyPath file = true then targets else targets ++ [file])

/-- The targets are condensed if the caller wants them. -/
def condenseAbsolute (stat : Bytes → Option FileType) (wanted : Bool) (absTargets : List Bytes) :
    Except SvnError (Option Bytes × Option (List Bytes)) :=
  match commonBase absTargets with
  | none => .error SvnError.undefinedBehaviour
  | some base =>
      .ok (splitBase stat base
        (if wanted = true then some (condensedTargets base absTargets) else none))

def condenseTargets (merge : Bytes → Option Bytes) (stat : Bytes → Option FileType) (wanted : Bool)
    (targets : List Bytes) : Except SvnError (Option Bytes × Option (List Bytes)) :=
  if targets = [] then .ok (none, none)
  else do
    let absTargets ← targets.mapM (getAbsolute merge)
    condenseAbsolute stat wanted absTargets

/-- The names between the separators, of which none stands for a directory that is already there. The
root is empty. -/
def IsAbsolute (path : Bytes) : Prop :=
  ∃ names : List Bytes, (∀ name ∈ names, IsComponent name ∧ name ≠ [46] ∧ name ≠ [46, 46]) ∧
    path = belowPath names

def AncestorOrEqual (path₁ path₂ : Bytes) : Prop :=
  ∃ names : List Bytes, (∀ name ∈ names, IsComponent name) ∧ path₂ = path₁ ++ belowPath names

/-- What has something below it is a directory. -/
def Consistent (stat : Bytes → Option FileType) : Prop :=
  ∀ path₁ path₂, path₁ ≠ [] → AncestorOrEqual path₁ path₂ → path₁ ≠ path₂ → stat path₂ ≠ none →
    stat path₁ = some .dir

def Unrelated (path₁ path₂ : Bytes) : Prop :=
  ¬ AncestorOrEqual path₁ path₂ ∧ ¬ AncestorOrEqual path₂ path₁

instance : Std.Symm Unrelated := ⟨fun _ _ unrelated => ⟨unrelated.2, unrelated.1⟩⟩

/-- What a base directory and the targets below it have to be. -/
structure Condensed (stat : Bytes → Option FileType) (targets : List Bytes) (base : Bytes)
    (condensed : List Bytes) : Prop where
  directory : base = [] ∨ stat base = some .dir
  above : ∀ target ∈ targets, AncestorOrEqual base target
  covered : ∀ target ∈ targets, (condensed = [] ∧ AncestorOrEqual base target) ∨
    ∃ relative ∈ condensed, AncestorOrEqual (pathJoin base relative) target
  unrelated : condensed.Pairwise Unrelated
  proper : ∀ relative ∈ condensed, pathJoin base relative ≠ base

section Ancestry

variable {path path₁ path₂ path₃ : Bytes} {names names₁ names₂ : List Bytes}

theorem AncestorOrEqual.refl (path : Bytes) : AncestorOrEqual path path :=
  ⟨[], by simp, by simp [belowPath]⟩

theorem AncestorOrEqual.trans (first : AncestorOrEqual path₁ path₂)
    (second : AncestorOrEqual path₂ path₃) : AncestorOrEqual path₁ path₃ := by
  obtain ⟨names₁, valid₁, rfl⟩ := first
  obtain ⟨names₂, valid₂, rfl⟩ := second
  refine ⟨names₁ ++ names₂, ?_, by rw [belowPath_append, List.append_assoc]⟩
  intro name member
  exact (List.mem_append.mp member).elim (valid₁ name) (valid₂ name)

theorem splitOn_joinPath (pieces : List Bytes) (nonempty : pieces ≠ [])
    (free : ∀ piece ∈ pieces, separator ∉ piece) : (joinPath pieces).splitOn separator = pieces := by
  induction pieces with
  | nil => exact absurd rfl nonempty
  | cons first rest ih =>
      obtain ⟨firstFree, restFree⟩ := List.forall_mem_cons.mp free
      cases rest with
      | nil => rw [joinPath_singleton, List.splitOn_eq_singleton firstFree]
      | cons second others =>
          have later := ih (List.cons_ne_nil _ _) restFree
          rw [joinPath, belowPath_cons, List.splitOn_append_cons_self_of_not_mem firstFree]
          exact congrArg _ later

theorem splitOn_belowPath (names : ∀ name ∈ names₁, IsComponent name) :
    (belowPath names₁).splitOn separator = [] :: names₁ := by
  have free : ∀ piece ∈ [] :: names₁, separator ∉ piece :=
    List.forall_mem_cons.mpr ⟨List.not_mem_nil, fun name member => (names name member).2⟩
  exact splitOn_joinPath ([] :: names₁) (List.cons_ne_nil _ _) free

theorem belowPath_injective (valid₁ : ∀ name ∈ names₁, IsComponent name)
    (valid₂ : ∀ name ∈ names₂, IsComponent name) (same : belowPath names₁ = belowPath names₂) :
    names₁ = names₂ := by
  have pieces := congrArg (List.splitOn separator) same
  rw [splitOn_belowPath valid₁, splitOn_belowPath valid₂] at pieces
  exact (List.cons.inj pieces).2

theorem belowPath_ne_nil (nonempty : names ≠ []) : belowPath names ≠ [] := by
  cases names with
  | nil => exact absurd rfl nonempty
  | cons first rest => exact List.cons_ne_nil _ _

theorem isRoot_belowPath (valid : ∀ name ∈ names, IsComponent name) (nonempty : names ≠ []) :
    IsRoot (belowPath names) := by
  rcases List.eq_nil_or_concat names with empty | ⟨before, last, rfl⟩
  · exact absurd empty nonempty
  · rw [List.concat_eq_append] at *
    rw [belowPath_append, belowPath_singleton, List.append_cons]
    exact (valid last (by simp)).isRoot.append

theorem getLongestAncestor_absolute (valid₁ : ∀ name ∈ names₁, IsComponent name)
    (valid₂ : ∀ name ∈ names₂, IsComponent name) (nonempty₁ : names₁ ≠ []) (nonempty₂ : names₂ ≠ []) :
    getLongestAncestor (belowPath names₁) (belowPath names₂) =
      some (belowPath (sharedPath names₁ names₂)) := by
  rw [getLongestAncestor_splitOn (belowPath_ne_nil nonempty₁) (belowPath_ne_nil nonempty₂),
    splitOn_belowPath valid₁, splitOn_belowPath valid₂, sharedPath, if_pos rfl]
  show some (canonicalize (belowPath (sharedPath names₁ names₂))) = _
  by_cases none : sharedPath names₁ names₂ = []
  · rw [none]
    rfl
  · rw [canonicalize_of_isRoot (isRoot_belowPath (fun name member =>
      valid₁ name (sharedPath_mem member)) none)]

theorem ancestorOrEqual_belowPath (valid₁ : ∀ name ∈ names₁, IsComponent name)
    (valid₂ : ∀ name ∈ names₂, IsComponent name) :
    AncestorOrEqual (belowPath names₁) (belowPath names₂) ↔ names₁ <+: names₂ := by
  constructor
  · rintro ⟨more, valid, same⟩
    rw [← belowPath_append] at same
    refine ⟨more, (belowPath_injective valid₂ ?_ same).symm⟩
    intro name member
    exact (List.mem_append.mp member).elim (valid₁ name) (valid name)
  · rintro ⟨more, rfl⟩
    exact ⟨more, fun name member => valid₂ name (List.mem_append_right _ member),
      belowPath_append names₁ more⟩

theorem sharedPath_eq_left {path₁ path₂ : List Bytes} : sharedPath path₁ path₂ = path₁ ↔ path₁ <+: path₂ := by
  constructor
  · intro same
    rw [← same]
    exact sharedPath_prefix_right path₁ path₂
  · intro begins
    exact (sharedPath_prefix_left path₁ path₂).eq_of_length_le
      (prefix_sharedPath path₁ (List.prefix_refl _) begins).length_le

/-- Below the root, one path is an ancestor of the other if it is the common one. -/
theorem getLongestAncestor_eq_left (absolute₁ : IsAbsolute path₁) (absolute₂ : IsAbsolute path₂)
    (nonempty₁ : path₁ ≠ []) (nonempty₂ : path₂ ≠ []) :
    getLongestAncestor path₁ path₂ = some path₁ ↔ AncestorOrEqual path₁ path₂ := by
  obtain ⟨names₁, valid₁, rfl⟩ := absolute₁
  obtain ⟨names₂, valid₂, rfl⟩ := absolute₂
  have some₁ : names₁ ≠ [] := by
    rintro rfl
    exact nonempty₁ rfl
  have some₂ : names₂ ≠ [] := by
    rintro rfl
    exact nonempty₂ rfl
  have components₁ := fun name member => (valid₁ name member).1
  have components₂ := fun name member => (valid₂ name member).1
  rw [getLongestAncestor_absolute components₁ components₂ some₁ some₂,
    ancestorOrEqual_belowPath components₁ components₂, ← sharedPath_eq_left]
  constructor
  · intro same
    exact belowPath_injective (fun name member => components₁ name (sharedPath_mem member)) components₁
      (Option.some.inj same)
  · intro same
    rw [same]

theorem getLongestAncestor_eq_right (absolute₁ : IsAbsolute path₁) (absolute₂ : IsAbsolute path₂)
    (nonempty₁ : path₁ ≠ []) (nonempty₂ : path₂ ≠ []) :
    getLongestAncestor path₁ path₂ = some path₂ ↔ AncestorOrEqual path₂ path₁ := by
  rw [getLongestAncestor_splitOn nonempty₁ nonempty₂, sharedPath_comm,
    ← getLongestAncestor_splitOn nonempty₂ nonempty₁,
    getLongestAncestor_eq_left absolute₂ absolute₁ nonempty₂ nonempty₁]

end Ancestry

section Passes

variable {target : Bytes} {targets others : List Bytes} {mark : Bool} {marks : List Bool}

/-- What the inner loop has done to the marks. -/
structure Compared (target : Bytes) (mark : Bool) (others : List Bytes) (marks : List Bool)
    (result : Bool × List Bool) : Prop where
  length : result.2.length = marks.length
  covered : ∀ other ∈ kept others marks, other ∈ kept others result.2 ∨ AncestorOrEqual target other
  fewer : (kept others result.2).Sublist (kept others marks)
  marked : result.1 = mark ∨
    (result.1 = true ∧ ∃ other ∈ kept others result.2, AncestorOrEqual other target)
  unrelated : result.1 = false → ∀ other ∈ kept others result.2, Unrelated target other

theorem compareAll_compared (absolute : IsAbsolute target) (nonempty : target ≠ [])
    (others : List Bytes) :
    ∀ mark marks, marks.length = others.length →
      (∀ other ∈ others, IsAbsolute other ∧ other ≠ []) →
      Compared target mark others marks (compareAll target mark others marks) := by
  induction others with
  | nil =>
      intro mark marks same _
      obtain rfl := List.length_eq_zero_iff.mp same
      exact ⟨rfl, by simp [kept], List.Sublist.refl _, .inl rfl, by simp [kept]⟩
  | cons other others ih =>
      intro mark marks same valid
      obtain ⟨⟨otherAbsolute, otherNonempty⟩, later⟩ := List.forall_mem_cons.mp valid
      cases marks with
      | nil => cases same
      | cons removed marks =>
          have lengths : marks.length = others.length := by simpa using same
          have left := getLongestAncestor_eq_left absolute otherAbsolute nonempty otherNonempty
          have right := getLongestAncestor_eq_right absolute otherAbsolute nonempty otherNonempty
          have rest := ih mark marks lengths later
          rw [compareAll]
          by_cases gone : removed = true
          · rw [if_pos gone]
            subst gone
            exact ⟨by simp [rest.length], rest.covered, rest.fewer, rest.marked, rest.unrelated⟩
          · have stays : removed = false := by simpa using gone
            subst stays
            rw [if_neg gone]
            by_cases child : AncestorOrEqual target other
            · rw [if_pos (left.mpr child)]
              refine ⟨by simp [rest.length], ?_, rest.fewer.cons other, rest.marked, rest.unrelated⟩
              exact List.forall_mem_cons.mpr ⟨.inr child, rest.covered⟩
            · rw [if_neg (mt left.mp child)]
              by_cases parent : AncestorOrEqual other target
              · have marked := ih true marks lengths later
                rw [if_pos (right.mpr parent)]
                refine ⟨by simp [marked.length], ?_, marked.fewer.cons₂ other, ?_, ?_⟩
                · refine List.forall_mem_cons.mpr ⟨.inl List.mem_cons_self, fun found member => ?_⟩
                  exact (marked.covered found member).imp_left (List.mem_cons_of_mem _)
                · refine .inr ⟨?_, other, List.mem_cons_self, parent⟩
                  exact marked.marked.elim id fun marked => marked.1
                · intro unmarked
                  have isMarked := marked.marked.elim id fun marked => marked.1
                  rw [isMarked] at unmarked
                  cases unmarked
              · rw [if_neg (mt right.mp parent)]
                refine ⟨by simp [rest.length], ?_, rest.fewer.cons₂ other, ?_, ?_⟩
                · refine List.forall_mem_cons.mpr ⟨.inl List.mem_cons_self, fun found member => ?_⟩
                  exact (rest.covered found member).imp_left (List.mem_cons_of_mem _)
                · refine rest.marked.imp_right fun marked => ⟨marked.1, ?_⟩
                  obtain ⟨found, member, above⟩ := marked.2
                  exact ⟨found, List.mem_cons_of_mem _ member, above⟩
                · intro unmarked
                  exact List.forall_mem_cons.mpr ⟨⟨child, parent⟩, rest.unrelated unmarked⟩

/-- What the first pass has done to the marks. -/
structure Passed (targets : List Bytes) (marks result : List Bool) : Prop where
  covered : ∀ target ∈ kept targets marks,
    ∃ found ∈ kept targets result, AncestorOrEqual found target
  fewer : (kept targets result).Sublist (kept targets marks)
  unrelated : (kept targets result).Pairwise Unrelated

theorem firstPass_passed (targets : List Bytes) :
    ∀ marks, marks.length = targets.length → (∀ target ∈ targets, IsAbsolute target ∧ target ≠ []) →
      Passed targets marks (firstPass targets marks) := by
  induction targets with
  | nil =>
      intro marks _ _
      exact ⟨by simp [kept], by simp [kept], by simp [kept]⟩
  | cons target targets ih =>
      intro marks same valid
      obtain ⟨⟨absolute, nonempty⟩, later⟩ := List.forall_mem_cons.mp valid
      cases marks with
      | nil => cases same
      | cons removed marks =>
          have lengths : marks.length = targets.length := by simpa using same
          rw [firstPass]
          by_cases gone : removed = true
          · subst gone
            obtain ⟨covered, fewer, unrelated⟩ := ih marks lengths later
            exact ⟨covered, fewer, unrelated⟩
          · have stays : removed = false := by simpa using gone
            subst stays
            rw [if_neg gone]
            have compared := compareAll_compared absolute nonempty targets false marks lengths later
            generalize compareAll target false targets marks = result at compared
            obtain ⟨mark, rest⟩ := result
            have passed := ih rest (compared.length.trans lengths) later
            dsimp only
            have below {other : Bytes} (member : other ∈ kept targets rest) :
                ∃ found ∈ kept targets (firstPass targets rest), AncestorOrEqual found other :=
              passed.covered other member
            cases mark with
            | false =>
                refine ⟨?_, (passed.fewer.trans compared.fewer).cons₂ target, ?_⟩
                · refine List.forall_mem_cons.mpr
                    ⟨⟨target, List.mem_cons_self, .refl target⟩, fun other member => ?_⟩
                  rcases compared.covered other member with stays | child
                  · obtain ⟨found, inside, above⟩ := below stays
                    exact ⟨found, List.mem_cons_of_mem _ inside, above⟩
                  · exact ⟨target, List.mem_cons_self, child⟩
                · refine List.pairwise_cons.mpr ⟨fun other member => ?_, passed.unrelated⟩
                  exact compared.unrelated rfl other (passed.fewer.subset member)
            | true =>
                obtain ⟨above, member, isAbove⟩ := (compared.marked.resolve_left Bool.true_eq_false.mp).2
                obtain ⟨found, inside, higher⟩ := below member
                refine ⟨?_, (passed.fewer.trans compared.fewer).cons target, passed.unrelated⟩
                refine List.forall_mem_cons.mpr
                  ⟨⟨found, inside, higher.trans isAbove⟩, fun other member => ?_⟩
                rcases compared.covered other member with stays | child
                · exact below stays
                · exact ⟨found, inside, (higher.trans isAbove).trans child⟩

theorem kept_replicate (targets : List Bytes) :
    kept targets (List.replicate targets.length false) = targets := by
  induction targets with
  | nil => rfl
  | cons target targets ih =>
      rw [List.length_cons, List.replicate_succ, kept, if_neg Bool.false_ne_true, ih]

theorem kept_secondPass (base : Bytes) (targets : List Bytes) :
    ∀ marks, kept targets (secondPass base targets marks) =
      (kept targets marks).filter (· ≠ base) := by
  induction targets with
  | nil =>
      intro marks
      cases marks <;> rfl
  | cons target targets ih =>
      intro marks
      cases marks with
      | nil => rfl
      | cons removed marks =>
          have later := ih marks
          rw [secondPass] at later ⊢
          rw [List.zipWith_cons_cons, kept, kept, later]
          cases removed <;> by_cases same : target = base <;> simp [same]

end Passes

section Bases

variable {first base : Bytes} {rest : List Bytes} {names : List Bytes} {paths : List (List Bytes)}

/-- One target more. -/
def nextBase (base : Option Bytes) (target : Bytes) : Option Bytes :=
  base.bind fun base => getLongestAncestor base target

theorem foldl_nextBase_none (targets : List Bytes) : targets.foldl nextBase none = none := by
  induction targets with
  | nil => rfl
  | cons target targets ih => exact ih

/-- A base is found for one target, or for targets below the root, and it has all common names. -/
theorem foldl_nextBase_some (paths : List (List Bytes)) :
    ∀ names, (∀ name ∈ names, IsComponent name) → (∀ path ∈ paths, ∀ name ∈ path, IsComponent name) →
      (paths.map belowPath).foldl nextBase (some (belowPath names)) = some base →
      base = belowPath (paths.foldl sharedPath names) ∧
        (paths = [] ∨ (names ≠ [] ∧ ∀ path ∈ paths, path ≠ [])) := by
  induction paths with
  | nil =>
      intro names _ _ found
      exact ⟨(Option.some.inj found).symm, .inl rfl⟩
  | cons path paths ih =>
      intro names valid validPaths found
      obtain ⟨validPath, later⟩ := List.forall_mem_cons.mp validPaths
      rw [List.map_cons, List.foldl_cons] at found
      have missing (empty : names = [] ∨ path = []) :
          nextBase (some (belowPath names)) (belowPath path) = none := by
        rcases empty with rfl | rfl
        · rfl
        · exact if_pos (.inr rfl)
      by_cases empty : names = [] ∨ path = []
      · rw [missing empty, foldl_nextBase_none] at found
        cases found
      · rw [not_or] at empty
        have next : nextBase (some (belowPath names)) (belowPath path) =
            some (belowPath (sharedPath names path)) :=
          getLongestAncestor_absolute valid validPath empty.1 empty.2
        rw [next] at found
        obtain ⟨same, others⟩ := ih (sharedPath names path)
          (fun name member => valid name (sharedPath_mem member)) later found
        refine ⟨same, .inr ⟨empty.1, List.forall_mem_cons.mpr ⟨empty.2, ?_⟩⟩⟩
        rcases others with rfl | more
        · simp
        · exact more.2

theorem foldl_nextBase_shared (paths : List (List Bytes)) :
    ∀ names, (∀ name ∈ names, IsComponent name) → (∀ path ∈ paths, ∀ name ∈ path, IsComponent name) →
      paths.foldl sharedPath names ≠ [] →
      (paths.map belowPath).foldl nextBase (some (belowPath names)) =
        some (belowPath (paths.foldl sharedPath names)) := by
  induction paths with
  | nil => exact fun _ _ _ _ => rfl
  | cons path paths ih =>
      intro names valid validPaths share
      obtain ⟨validPath, later⟩ := List.forall_mem_cons.mp validPaths
      obtain ⟨beginsNames, begins⟩ := foldl_sharedPath_below (path :: paths) names
      have beginsPath := begins path List.mem_cons_self
      have next : nextBase (some (belowPath names)) (belowPath path) =
          some (belowPath (sharedPath names path)) := by
        apply getLongestAncestor_absolute valid validPath
        · rintro rfl
          exact share (List.prefix_nil.mp beginsNames)
        · rintro rfl
          exact share (List.prefix_nil.mp beginsPath)
      rw [List.map_cons, List.foldl_cons, List.foldl_cons, next]
      exact ih (sharedPath names path) (fun name member => valid name (sharedPath_mem member)) later share

end Bases

section Relatives

variable {base target : Bytes} {targets : List Bytes}

/-- The name of a target below the base. -/
theorem drop_base (above : AncestorOrEqual base target) (other : target ≠ base) :
    target = base ++ separator :: target.drop (base.length + 1) ∧
      target.drop (base.length + 1) ≠ [] ∧
      (target.drop (base.length + 1)).head? ≠ some separator := by
  obtain ⟨names, valid, rfl⟩ := above
  cases names with
  | nil => simp [belowPath] at other
  | cons first rest =>
      have name := valid first List.mem_cons_self
      have dropped : (base ++ belowPath (first :: rest)).drop (base.length + 1) =
          first ++ belowPath rest := by
        rw [belowPath_cons]
        simp
      rw [dropped]
      refine ⟨rfl, List.append_ne_nil_of_left_ne_nil name.1 _, ?_⟩
      rw [List.head?_append_of_ne_nil _ name.1]
      intro isHead
      exact name.2 (List.mem_of_mem_head? isHead)

theorem pathJoin_drop (root : IsRoot base) (above : AncestorOrEqual base target)
    (other : target ≠ base) : pathJoin base (target.drop (base.length + 1)) = target := by
  obtain ⟨split, nonempty, relative⟩ := drop_base above other
  rw [pathJoin_of_isRoot root nonempty relative]
  exact split.symm

theorem unrelated_drop {target₁ target₂ : Bytes} (above₁ : AncestorOrEqual base target₁)
    (above₂ : AncestorOrEqual base target₂) (other₁ : target₁ ≠ base) (other₂ : target₂ ≠ base)
    (unrelated : Unrelated target₁ target₂) :
    Unrelated (target₁.drop (base.length + 1)) (target₂.drop (base.length + 1)) := by
  obtain ⟨split₁, -, -⟩ := drop_base above₁ other₁
  obtain ⟨split₂, -, -⟩ := drop_base above₂ other₂
  have whole {path₁ path₂ : Bytes} (related : AncestorOrEqual path₁ path₂) :
      AncestorOrEqual (base ++ separator :: path₁) (base ++ separator :: path₂) := by
    obtain ⟨names, valid, rfl⟩ := related
    exact ⟨names, valid, by simp⟩
  constructor
  · intro related
    apply unrelated.1
    rw [split₁, split₂]
    exact whole related
  · intro related
    apply unrelated.2
    rw [split₁, split₂]
    exact whole related

/-- The targets that stay after both passes. -/
theorem condensedTargets_eq (base : Bytes) (targets : List Bytes) :
    condensedTargets base targets =
      ((kept targets (firstPass targets (List.replicate targets.length false))).filter
        (· ≠ base)).map (List.drop (base.length + 1)) := by
  rw [condensedTargets, kept_secondPass]

/-- Below a base that is not the root, what stays has all properties. -/
theorem condensed_below {stat : Bytes → Option FileType} (root : IsRoot base)
    (directory : stat base = some .dir)
    (valid : ∀ target ∈ targets, IsAbsolute target ∧ target ≠ [])
    (above : ∀ target ∈ targets, AncestorOrEqual base target) :
    Condensed stat targets base (condensedTargets base targets) := by
  have passed := firstPass_passed targets (List.replicate targets.length false) (by simp) valid
  rw [condensedTargets_eq]
  obtain ⟨covered, fewer, unrelated⟩ := passed
  rw [kept_replicate] at covered fewer
  generalize kept targets (firstPass targets (List.replicate targets.length false)) = stay
    at covered fewer unrelated
  have keeps {found : Bytes} (member : found ∈ stay.filter (· ≠ base)) :
      found ∈ stay ∧ AncestorOrEqual base found ∧ found ≠ base := by
    obtain ⟨inside, other⟩ := List.mem_filter.mp member
    exact ⟨inside, above found (fewer.subset inside), by simpa using other⟩
  refine ⟨.inr directory, above, ?_, ?_, ?_⟩
  · intro target member
    obtain ⟨found, inside, higher⟩ := covered target member
    by_cases isBase : found = base
    · -- Nothing else stays beside the base.
      subst isBase
      refine .inl ⟨?_, above target member⟩
      rw [List.map_eq_nil_iff, List.filter_eq_nil_iff]
      intro other stays
      rw [decide_eq_true_eq, not_not]
      by_contra differ
      exact (unrelated.forall inside stays (Ne.symm differ)).1 (above other (fewer.subset stays))
    · exact .inr ⟨_, List.mem_map_of_mem (List.mem_filter.mpr ⟨inside, by simpa using isBase⟩), by
        rw [pathJoin_drop root (above found (fewer.subset inside)) isBase]
        exact higher⟩
  · rw [List.pairwise_map]
    have pairs := unrelated.sublist (List.filter_sublist (p := fun target => decide (target ≠ base)))
    refine pairs.imp_of_mem fun first second apart => ?_
    obtain ⟨-, above₁, other₁⟩ := keeps first
    obtain ⟨-, above₂, other₂⟩ := keeps second
    exact unrelated_drop above₁ above₂ other₁ other₂ apart
  · intro relative member
    obtain ⟨found, inside, rfl⟩ := List.mem_map.mp member
    obtain ⟨-, higher, other⟩ := keeps inside
    rw [pathJoin_drop root higher other]
    exact other

end Relatives

section Condensing

variable {merge : Bytes → Option Bytes} {stat : Bytes → Option FileType} {base name : Bytes}
  {targets absTargets condensed : List Bytes}

theorem condenseTargets_eq (nonempty : targets ≠ [])
    (absolutes : targets.mapM (getAbsolute merge) = .ok absTargets) :
    condenseTargets merge stat true targets = condenseAbsolute stat true absTargets := by
  rw [condenseTargets, if_neg nonempty, absolutes]
  rfl

theorem condenseAbsolute_base (found : commonBase absTargets = some base) :
    condenseAbsolute stat true absTargets =
      .ok (splitBase stat base (some (condensedTargets base absTargets))) := by
  rw [condenseAbsolute, found]
  rfl

theorem splitBase_dir (directory : stat base = some .dir) :
    splitBase stat base (some condensed) = (some base, some condensed) := by
  rw [splitBase, splitIfFile, directory]
  rfl

/-- The empty base stays, whatever is found for it. -/
theorem splitBase_nil (stat : Bytes → Option FileType) (condensed : List Bytes) :
    splitBase stat [] (some condensed) = (some [], some condensed) := by
  rw [splitBase, splitIfFile]
  cases stat [] with
  | none => rfl
  | some type => cases type <;> rfl

/-- A file is split into its directory and its name. -/
theorem splitBase_reg {names : List Bytes} (valid : ∀ name ∈ names, IsComponent name)
    (isComponent : IsComponent name) (other : name ≠ [46])
    (regular : stat (belowPath (names ++ [name])) = some .reg) :
    splitBase stat (belowPath (names ++ [name])) (some condensed) =
      (some (belowPath names), some (condensed ++ [name])) := by
  have all : ∀ component ∈ names ++ [name], IsComponent component := by
    intro component member
    rcases List.mem_append.mp member with earlier | last
    · exact valid component earlier
    · rw [List.mem_singleton.mp last]
      exact isComponent
  have root := isRoot_belowPath all (by simp)
  have whole : belowPath (names ++ [name]) = belowPath names ++ separator :: name := by
    rw [belowPath_append, belowPath_singleton]
  have directory : removeComponent (belowPath (names ++ [name])) = belowPath names := by
    by_cases none : names = []
    · subst none
      rw [removeComponent, canonicalize_of_isRoot root, whole, chopBackToChar_component isComponent.2]
      rfl
    · rw [whole]
      exact removeComponent_below (isRoot_belowPath valid none) isComponent
  have file : basename (belowPath (names ++ [name])) = name := by
    rw [basename, if_neg root.ne_nil, canonicalize_of_isRoot root, if_neg root.ne_nil, whole,
      List.reverse_append, List.reverse_cons, List.append_assoc,
      List.takeWhile_append_of_pos (by
        intro byte member
        rw [List.mem_reverse] at member
        simpa using fun same : byte = separator => isComponent.2 (same ▸ member))]
    simp
  have isFile : isEmptyPath name = false := by
    have third : name ≠ [46, separator] := by
      rintro rfl
      exact isComponent.2 (by simp)
    simp [isEmptyPath, isComponent.1, other, third]
  rw [splitBase, splitIfFile, regular]
  show (some (splitPath (belowPath (names ++ [name]))).1, some (if isEmptyPath
    (splitPath (belowPath (names ++ [name]))).2 = true then _ else _)) = _
  rw [splitPath, canonicalize_of_isRoot root, directory, file, if_neg (by simp [isFile])]

theorem exists_paths (targets : List Bytes) (absolute : ∀ target ∈ targets, IsAbsolute target) :
    ∃ paths : List (List Bytes), targets = paths.map belowPath ∧
      ∀ path ∈ paths, ∀ name ∈ path, IsComponent name ∧ name ≠ [46] ∧ name ≠ [46, 46] := by
  induction targets with
  | nil => exact ⟨[], rfl, by simp⟩
  | cons target targets ih =>
      obtain ⟨⟨names, valid, rfl⟩, later⟩ := List.forall_mem_cons.mp absolute
      obtain ⟨paths, rfl, validPaths⟩ := ih later
      exact ⟨names :: paths, rfl, List.forall_mem_cons.mpr ⟨valid, validPaths⟩⟩

/-- Targets that are all the base leave nothing. -/
theorem condensedTargets_same (absolute : ∀ target ∈ targets, IsAbsolute target ∧ target ≠ [])
    (same : ∀ target ∈ targets, target = base) : condensedTargets base targets = [] := by
  have passed := firstPass_passed targets (List.replicate targets.length false) (by simp) absolute
  have fewer := passed.fewer
  rw [kept_replicate] at fewer
  rw [condensedTargets_eq, List.map_eq_nil_iff, List.filter_eq_nil_iff]
  intro target member
  simpa using same target (fewer.subset member)

/-- One file is condensed to its directory, if that is not the root. -/
theorem condensed_file {names : List Bytes} (valid : ∀ name ∈ names, IsComponent name)
    (isComponent : IsComponent name) (nonempty : names ≠ [])
    (directory : stat (belowPath names) = some .dir)
    (same : ∀ target ∈ targets, target = belowPath (names ++ [name])) :
    Condensed stat targets (belowPath names) [name] := by
  have whole : belowPath (names ++ [name]) = belowPath names ++ separator :: name := by
    rw [belowPath_append, belowPath_singleton]
  have joins : pathJoin (belowPath names) name = belowPath (names ++ [name]) := by
    rw [whole]
    apply pathJoin_of_isRoot (isRoot_belowPath valid nonempty) isComponent.1
    exact fun isHead => isComponent.2 (List.mem_of_mem_head? isHead)
  refine ⟨.inr directory, ?_, ?_, List.pairwise_singleton _ _, ?_⟩
  · intro target member
    rw [same target member]
    exact ⟨[name], by simpa using isComponent, by rw [whole, belowPath_singleton]⟩
  · intro target member
    rw [same target member]
    exact .inr ⟨name, List.mem_singleton_self _, by rw [joins]; exact .refl _⟩
  · intro relative member
    rw [List.mem_singleton.mp member, joins, whole]
    simp

/-- Targets that lie below the root in one directory are condensed. -/
theorem condensed_of_directory (absolute : ∀ target ∈ absTargets, IsAbsolute target)
    (existing : ∀ target ∈ absTargets, target = [] ∨ stat target = some .dir ∨ stat target = some .reg)
    (consistent : Consistent stat) (nonempty : absTargets ≠ []) (isComponent : IsComponent name)
    (directory : stat (separator :: name) = some .dir)
    (above : ∀ target ∈ absTargets, AncestorOrEqual (separator :: name) target) :
    ∃ base condensed, condenseAbsolute stat true absTargets = .ok (some base, some condensed) ∧
      Condensed stat absTargets base condensed := by
  obtain ⟨paths, rfl, names⟩ := exists_paths absTargets absolute
  have valid : ∀ path ∈ paths, ∀ name ∈ path, IsComponent name :=
    fun path member name inside => (names path member name inside).1
  have starts : ∀ path ∈ paths, [name] <+: path := by
    intro path member
    apply (ancestorOrEqual_belowPath (by simpa using isComponent) (valid path member)).mp
    rw [belowPath_singleton]
    exact above _ (List.mem_map_of_mem member)
  cases paths with
  | nil => exact absurd rfl nonempty
  | cons first rest =>
      obtain ⟨validFirst, validRest⟩ := List.forall_mem_cons.mp valid
      obtain ⟨startFirst, startRest⟩ := List.forall_mem_cons.mp starts
      have begins := prefix_foldl_sharedPath rest startFirst startRest
      have share : rest.foldl sharedPath first ≠ [] := by
        intro empty
        rw [empty] at begins
        cases List.prefix_nil.mp begins
      have found : commonBase ((first :: rest).map belowPath) =
          some (belowPath (rest.foldl sharedPath first)) :=
        foldl_nextBase_shared rest first validFirst validRest share
      have common : ∀ path ∈ first :: rest, rest.foldl sharedPath first <+: path :=
        List.forall_mem_cons.mpr (foldl_sharedPath_below rest first)
      rw [condenseAbsolute_base found]
      generalize rest.foldl sharedPath first = shared at begins share common
      have validShared : ∀ name ∈ shared, IsComponent name := fun name inside =>
        validFirst name ((common first List.mem_cons_self).subset inside)
      have root := isRoot_belowPath validShared share
      have higher : ∀ target ∈ (first :: rest).map belowPath, AncestorOrEqual (belowPath shared) target := by
        intro target member
        obtain ⟨path, inside, rfl⟩ := List.mem_map.mp member
        exact (ancestorOrEqual_belowPath validShared (valid path inside)).mpr (common path inside)
      have absolutes : ∀ target ∈ (first :: rest).map belowPath, IsAbsolute target ∧ target ≠ [] := by
        intro target member
        refine ⟨absolute target member, ?_⟩
        rintro rfl
        obtain ⟨path, inside, empty⟩ := List.mem_map.mp member
        obtain ⟨more, rfl⟩ := starts path inside
        cases empty
      have exist : ∀ target ∈ (first :: rest).map belowPath, stat target = some .dir ∨ stat target = some .reg :=
        fun target member => (existing target member).resolve_left (absolutes target member).2
      by_cases isDirectory : stat (belowPath shared) = some .dir
      · rw [splitBase_dir isDirectory]
        exact ⟨_, _, rfl, condensed_below root isDirectory absolutes higher⟩
      · have same : ∀ target ∈ (first :: rest).map belowPath, target = belowPath shared := by
          intro target member
          by_contra differ
          apply isDirectory
          apply consistent (belowPath shared) target root.ne_nil (higher target member) (Ne.symm differ)
          rcases exist target member with isDir | isReg <;> simp [*]
        have regular : stat (belowPath shared) = some .reg := by
          have isFirst := same (belowPath first) (by simp)
          have either := exist (belowPath first) (by simp)
          rw [isFirst] at either
          exact either.resolve_left isDirectory
        rcases List.eq_nil_or_concat shared with empty | ⟨before, last, rfl⟩
        · exact absurd empty share
        · rw [List.concat_eq_append] at *
          have validBefore : ∀ name ∈ before, IsComponent name := fun name inside =>
            validShared name (List.mem_append_left _ inside)
          have lastComponent := validShared last (by simp)
          have lastName : last ≠ [46] := by
            obtain ⟨inside, -⟩ := List.forall_mem_cons.mp names
            exact (inside last ((common first List.mem_cons_self).subset (by simp))).2.1
          have longer : before ≠ [] := by
            rintro rfl
            apply isDirectory
            obtain rfl : name = last := by simpa using begins
            rw [List.nil_append, belowPath_singleton]
            exact directory
          have parent : stat (belowPath before) = some .dir := by
            apply consistent (belowPath before) (belowPath (before ++ [last])) (belowPath_ne_nil longer)
            · exact ⟨[last], by simpa using lastComponent, belowPath_append before [last]⟩
            · rw [belowPath_append, belowPath_singleton]
              simp
            · rw [regular]
              simp
          rw [splitBase_reg validBefore lastComponent lastName regular,
            condensedTargets_same absolutes same]
          exact ⟨_, _, rfl, condensed_file validBefore lastComponent longer parent same⟩

/-- A relative path is no ancestor of a target. -/
theorem not_ancestorOrEqual {path target : Bytes} (nonempty : path ≠ [])
    (relative : path.head? ≠ some separator) (absolute : IsAbsolute target) :
    ¬ AncestorOrEqual path target := by
  rintro ⟨more, -, same⟩
  obtain ⟨names, -, rfl⟩ := absolute
  cases path with
  | nil => exact nonempty rfl
  | cons byte path =>
      cases names with
      | nil => cases same
      | cons first rest =>
          rw [belowPath_cons] at same
          exact relative (by rw [(List.cons.inj same).1.symm]; rfl)

/-- An empty base is below no target, since it is joined to a relative path. -/
theorem not_covered {target : Bytes} (absolute : IsAbsolute target) (nonempty : condensed ≠ [])
    (relative : ∀ path ∈ condensed, path ≠ [] ∧ path.head? ≠ some separator) :
    ¬ ((condensed = [] ∧ AncestorOrEqual [] target) ∨
      ∃ relative ∈ condensed, AncestorOrEqual (pathJoin [] relative) target) := by
  rintro (⟨empty, -⟩ | ⟨path, member, above⟩)
  · exact nonempty empty
  · obtain ⟨some, noSeparator⟩ := relative path member
    exact not_ancestorOrEqual some noSeparator absolute above

/-- Below an empty base, all names are relative. -/
theorem not_condensed_root (nonempty : targets ≠ [])
    (absolute : ∀ target ∈ targets, IsAbsolute target ∧ target ≠ []) :
    ¬ Condensed stat targets [] (condensedTargets [] targets) := by
  intro right
  obtain ⟨first, member⟩ := List.exists_mem_of_ne_nil targets nonempty
  have passed := firstPass_passed targets (List.replicate targets.length false) (by simp) absolute
  obtain ⟨covered, fewer, -⟩ := passed
  rw [kept_replicate] at covered fewer
  rw [condensedTargets_eq] at right
  obtain ⟨stays, inside, -⟩ := covered first member
  have staysOther := (absolute stays (fewer.subset inside)).2
  refine absurd (right.covered first member) (not_covered (absolute first member).1 ?_ ?_)
  · apply List.ne_nil_of_mem
    exact List.mem_map_of_mem (List.mem_filter.mpr ⟨inside, by simpa using staysOther⟩)
  · intro relative isRelative
    obtain ⟨target, filtered, rfl⟩ := List.mem_map.mp isRelative
    obtain ⟨isKept, -⟩ := List.mem_filter.mp filtered
    obtain ⟨⟨path, validPath, rfl⟩, other⟩ := absolute target (fewer.subset isKept)
    have above : AncestorOrEqual [] (belowPath path) :=
      ⟨path, fun name inside => (validPath name inside).1, rfl⟩
    exact (drop_base above other).2

theorem not_condensed_file (nonempty : targets ≠ []) (isComponent : IsComponent name)
    (absolute : ∀ target ∈ targets, IsAbsolute target) : ¬ Condensed stat targets [] [name] := by
  intro right
  obtain ⟨first, member⟩ := List.exists_mem_of_ne_nil targets nonempty
  refine absurd (right.covered first member) (not_covered (absolute first member) (by simp) ?_)
  intro relative isRelative
  rw [List.mem_singleton.mp isRelative]
  exact ⟨isComponent.1, fun isHead => isComponent.2 (List.mem_of_mem_head? isHead)⟩

/-- Condensed targets lie in one directory below the root, unless the root is the only target. -/
theorem directory_of_condensed {found : Bytes} (absolute : ∀ target ∈ absTargets, IsAbsolute target)
    (existing : ∀ target ∈ absTargets, target = [] ∨ stat target = some .dir ∨ stat target = some .reg)
    (consistent : Consistent stat) (nonempty : absTargets ≠ [])
    (returned : condenseAbsolute stat true absTargets = .ok (some found, some condensed))
    (right : Condensed stat absTargets found condensed) :
    absTargets = [[]] ∨ ∃ name, IsComponent name ∧ stat (separator :: name) = some .dir ∧
      ∀ target ∈ absTargets, AncestorOrEqual (separator :: name) target := by
  obtain ⟨paths, rfl, names⟩ := exists_paths absTargets absolute
  have valid : ∀ path ∈ paths, ∀ name ∈ path, IsComponent name :=
    fun path member name inside => (names path member name inside).1
  cases paths with
  | nil => exact absurd rfl nonempty
  | cons first rest =>
  obtain ⟨validFirst, validRest⟩ := List.forall_mem_cons.mp valid
  refine or_iff_not_imp_left.mpr fun several => ?_
  cases isBase : commonBase ((first :: rest).map belowPath) with
  | none =>
      rw [condenseAbsolute, isBase] at returned
      cases returned
  | some base =>
  obtain ⟨rfl, others⟩ := foldl_nextBase_some rest first validFirst validRest isBase
  have longer : ∀ path ∈ first :: rest, path ≠ [] := by
    rcases others with rfl | ⟨isSome, more⟩
    · simp only [List.mem_singleton, forall_eq]
      rintro rfl
      exact several rfl
    · exact List.forall_mem_cons.mpr ⟨isSome, more⟩
  have absolutes : ∀ target ∈ (first :: rest).map belowPath, IsAbsolute target ∧ target ≠ [] := by
    intro target member
    refine ⟨absolute target member, ?_⟩
    obtain ⟨path, inside, rfl⟩ := List.mem_map.mp member
    exact belowPath_ne_nil (longer path inside)
  have common : ∀ path ∈ first :: rest, rest.foldl sharedPath first <+: path :=
    List.forall_mem_cons.mpr (foldl_sharedPath_below rest first)
  rw [condenseAbsolute_base isBase] at returned
  cases shared : rest.foldl sharedPath first with
  | nil =>
      -- Only the root is shared, so that the base is empty.
      rw [shared, show belowPath [] = [] from rfl, splitBase_nil] at returned
      obtain ⟨isFound, isCondensed⟩ := Prod.mk.inj (Except.ok.inj returned)
      obtain rfl := Option.some.inj isFound
      obtain rfl := Option.some.inj isCondensed
      exact absurd right (not_condensed_root nonempty absolutes)
  | cons name more =>
      rw [shared] at common returned
      have begins : ∀ path ∈ first :: rest, [name] <+: path := fun path member =>
        List.IsPrefix.trans ⟨more, rfl⟩ (common path member)
      obtain ⟨isComponent, isName, -⟩ := names first List.mem_cons_self name
        ((begins first List.mem_cons_self).subset (List.mem_singleton_self name))
      have above : ∀ target ∈ (first :: rest).map belowPath,
          AncestorOrEqual (separator :: name) target := by
        intro target member
        obtain ⟨path, inside, rfl⟩ := List.mem_map.mp member
        rw [← belowPath_singleton]
        exact (ancestorOrEqual_belowPath (by simpa using isComponent) (valid path inside)).mpr
          (begins path inside)
      refine ⟨name, isComponent, ?_, above⟩
      by_contra notDirectory
      -- A file directly below the root is the only target, and the base is empty again.
      have exist : ∀ target ∈ (first :: rest).map belowPath,
          stat target = some .dir ∨ stat target = some .reg :=
        fun target member => (existing target member).resolve_left (absolutes target member).2
      have same : ∀ target ∈ (first :: rest).map belowPath, target = belowPath [name] := by
        intro target member
        rw [belowPath_singleton]
        by_contra differ
        apply notDirectory
        apply consistent _ target (List.cons_ne_nil _ _) (above target member) (Ne.symm differ)
        rcases exist target member with isDir | isReg <;> simp [*]
      have isFirst := same (belowPath first) (by simp)
      have regular : stat (belowPath ([] ++ [name])) = some .reg := by
        have either := exist (belowPath first) (by simp)
        rw [isFirst, belowPath_singleton] at either
        rw [List.nil_append, belowPath_singleton]
        exact either.resolve_left notDirectory
      obtain rfl : more = [] := by
        have begin := common first List.mem_cons_self
        rw [belowPath_injective validFirst (by simpa using isComponent) isFirst] at begin
        simpa using begin
      have split : splitBase stat (belowPath [name]) (some []) = (some [], some [name]) :=
        splitBase_reg (List.forall_mem_nil _) isComponent isName regular
      rw [condensedTargets_same absolutes same, split] at returned
      obtain ⟨isFound, isCondensed⟩ := Prod.mk.inj (Except.ok.inj returned)
      obtain rfl := Option.some.inj isFound
      obtain rfl := Option.some.inj isCondensed
      exact not_condensed_file nonempty isComponent absolute right

/-- Targets are condensed rightly if they lie in one directory below the root, or if the root is the
only target. -/
theorem condenseTargets_iff (merge : Bytes → Option Bytes) (stat : Bytes → Option FileType)
    (targets absTargets : List Bytes) (nonempty : targets ≠ [])
    (absolutes : targets.mapM (getAbsolute merge) = .ok absTargets)
    (absolute : ∀ target ∈ absTargets, IsAbsolute target)
    (existing : ∀ target ∈ absTargets, target = [] ∨ stat target = some .dir ∨ stat target = some .reg)
    (consistent : Consistent stat) :
    (∃ base condensed, condenseTargets merge stat true targets = .ok (some base, some condensed) ∧
      Condensed stat absTargets base condensed) ↔
    absTargets = [[]] ∨ ∃ name, IsComponent name ∧ stat (separator :: name) = some .dir ∧
      ∀ target ∈ absTargets, AncestorOrEqual (separator :: name) target := by
  have absNonempty : absTargets ≠ [] := by
    rintro rfl
    cases targets with
    | nil => exact nonempty rfl
    | cons target targets =>
        rw [List.mapM_cons] at absolutes
        obtain ⟨first, -, rest⟩ := bind_eq_ok absolutes
        obtain ⟨others, -, both⟩ := bind_eq_ok rest
        cases both
  rw [condenseTargets_eq nonempty absolutes]
  constructor
  · rintro ⟨base, condensed, returned, right⟩
    exact directory_of_condensed absolute existing consistent absNonempty returned right
  · rintro (rfl | ⟨name, isComponent, directory, above⟩)
    · have found : commonBase [[]] = some [] := rfl
      rw [condenseAbsolute_base found, splitBase_nil]
      refine ⟨[], [], rfl, .inl rfl, ?_, ?_, List.Pairwise.nil, by simp⟩
      · exact fun target member => List.mem_singleton.mp member ▸ .refl _
      · exact fun target member => .inl ⟨rfl, List.mem_singleton.mp member ▸ .refl _⟩
    · exact condensed_of_directory absolute existing consistent absNonempty isComponent directory above

def directories (path : Bytes) : Option FileType := if path = [] then none else some .dir

theorem isAbsolute_pair {first second : Bytes} (name₁ : IsComponent first) (name₂ : IsComponent second)
    (other₁ : first ≠ [46] ∧ first ≠ [46, 46]) (other₂ : second ≠ [46] ∧ second ≠ [46, 46]) :
    IsAbsolute (separator :: first ++ separator :: second) := by
  refine ⟨[first, second], ?_, by simp [belowPath]⟩
  simp only [List.mem_cons, List.not_mem_nil, or_false, forall_eq_or_imp, forall_eq]
  exact ⟨⟨name₁, other₁⟩, name₂, other₂⟩

/-- Two directories in a third one. -/
theorem condenseTargets_pair :
    ∃ base condensed, condenseTargets some directories true [[47, 97, 47, 98], [47, 97, 47, 99]] =
        .ok (some base, some condensed) ∧
      Condensed directories [[47, 97, 47, 98], [47, 97, 47, 99]] base condensed := by
  have name₁ : IsComponent [97] := by decide
  have name₂ : IsComponent [98] := by decide
  have name₃ : IsComponent [99] := by decide
  refine (condenseTargets_iff some directories [[47, 97, 47, 98], [47, 97, 47, 99]]
    [[47, 97, 47, 98], [47, 97, 47, 99]] (by decide) rfl ?_ (by decide) ?_).mpr
      (.inr ⟨[97], name₁, rfl, ?_⟩)
  · simp only [List.mem_cons, List.not_mem_nil, or_false, forall_eq_or_imp, forall_eq]
    exact ⟨isAbsolute_pair name₁ name₂ (by decide) (by decide),
      isAbsolute_pair name₁ name₃ (by decide) (by decide)⟩
  · intro path₁ path₂ nonempty _ _ _
    rw [directories, if_neg nonempty]
  · simp only [List.mem_cons, List.not_mem_nil, or_false, forall_eq_or_imp, forall_eq]
    exact ⟨⟨[[98]], by simpa using name₂, rfl⟩, [[99]], by simpa using name₃, rfl⟩

/-- Two directories that share only the root have an empty base and are left as relative paths. A third
one is compared with a missing base. -/
theorem condenseTargets_root :
    (condenseTargets some directories true [[47, 97], [47, 98]] =
        .ok (some [], some [[97], [98]]) ∧
      ¬ Condensed directories [[47, 97], [47, 98]] [] [[97], [98]]) ∧
    condenseTargets some directories true [[47, 97], [47, 98], [47, 99]] =
      .error SvnError.undefinedBehaviour := by
  refine ⟨⟨rfl, fun right => ?_⟩, rfl⟩
  have absolute : IsAbsolute [47, 97] :=
    ⟨[[97]], by simpa using (by decide : IsComponent [97]), rfl⟩
  exact absurd (right.covered [47, 97] (by decide)) (not_covered absolute (by decide) (by decide))

end Condensing

end Subversion.Subr
