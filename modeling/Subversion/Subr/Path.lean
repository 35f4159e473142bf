/-
This file models the paths of the utility library: byte strings whose components are separated by slashes.
-/

import Mathlib.Data.List.TakeWhile
import Subversion.Delta.Window
import Subversion.Lib.Traversal

namespace Subversion.Subr

open Delta Lib

def separator : UInt8 := 47

/-- Without its trailing separators. -/
def canonicalize (path : Bytes) : Bytes := (path.reverse.dropWhile (· = separator)).reverse

/-- No separator goes after an empty path or after the root. -/
def addComponent (path component : Bytes) : Bytes :=
  canonicalize ((if path = [] ∨ path = [separator] then path else path ++ [separator]) ++ component)

/-- The text before the last occurrence of a character, if there is one. -/
def chopBackToChar (char : UInt8) (text : Bytes) : Option Bytes :=
  match text.reverse.dropWhile (· ≠ char) with
  | [] => none
  | _ :: before => some before.reverse

/-- The byte before an empty buffer is taken not to be a separator. -/
def removeComponent (path : Bytes) : Bytes :=
  match chopBackToChar separator (canonicalize path) with
  | none => []
  | some parent => if parent.getLast? = some separator then parent.dropLast else parent

/-- The last component. Of separators only, one is left. -/
def basename (path : Bytes) : Bytes :=
  if path = [] then []
  else if canonicalize path = [] then [separator]
  else ((canonicalize path).reverse.takeWhile (· ≠ separator)).reverse

def splitPath (path : Bytes) : Bytes × Bytes := (removeComponent (canonicalize path), basename path)

/-- The current directory is empty, too. -/
def isEmptyPath (path : Bytes) : Bool := path = [] || path = [46] || path = [46, separator]

/-- The characters are signed. -/
def signedByte (byte : UInt8) : Int := if byte.toNat < 128 then byte.toNat else byte.toNat - 256

/-- A separator comes after every other character, so that a parent comes before its children. The
end of a path counts as zero. -/
def comparePaths : Bytes → Bytes → Int
  | [], [] => 0
  | [], byte :: _ => if byte = separator then -1 else if 0 < signedByte byte then -1 else 1
  | byte :: _, [] => if byte = separator then 1 else if signedByte byte < 0 then -1 else 1
  | byte₁ :: rest₁, byte₂ :: rest₂ =>
      if byte₁ = byte₂ then comparePaths rest₁ rest₂
      else if byte₁ = separator then 1
      else if byte₂ = separator then -1
      else if signedByte byte₁ < signedByte byte₂ then -1 else 1

/-- The position of the first difference, and of the last separator before it. -/
def skipCommon (position lastDirsep : Nat) : Bytes → Bytes → Nat × Nat
  | byte₁ :: rest₁, byte₂ :: rest₂ =>
      if byte₁ = byte₂ then
        skipCommon (position + 1) (if byte₁ = separator then position else lastDirsep) rest₁ rest₂
      else (position, lastDirsep)
  | _, _ => (position, lastDirsep)

/-- The whole common text is an ancestor. -/
def EndsAtSeparator (position : Nat) (path₁ path₂ : Bytes) : Prop :=
  (position = path₁.length ∧ path₂[position]? = some separator) ∨
    (position = path₂.length ∧ path₁[position]? = some separator) ∨
    (position = path₁.length ∧ position = path₂.length)

instance (position : Nat) (path₁ path₂ : Bytes) : Decidable (EndsAtSeparator position path₁ path₂) :=
  inferInstanceAs (Decidable (_ ∨ _))

def commonText (path₁ path₂ : Bytes) (skipped : Nat × Nat) : Bytes :=
  if EndsAtSeparator skipped.1 path₁ path₂ then path₁.take skipped.1 else path₁.take skipped.2

/-- An empty path has no ancestor. -/
def getLongestAncestor (path₁ path₂ : Bytes) : Option Bytes :=
  if path₁ = [] ∨ path₂ = [] then none
  else some (canonicalize (commonText path₁ path₂ (skipCommon 0 0 path₁ path₂)))

section Components

/-- One name between two separators. -/
def IsComponent (component : Bytes) : Prop := component ≠ [] ∧ separator ∉ component

instance : DecidablePred IsComponent := fun _ => inferInstanceAs (Decidable (_ ∧ _))

/-- Each component after a separator. -/
def belowPath (components : List Bytes) : Bytes := components.flatMap (separator :: ·)

/-- A relative path. -/
def joinPath : List Bytes → Bytes
  | [] => []
  | component :: rest => component ++ belowPath rest

/-- A text that does not end in a separator. -/
def IsRoot (root : Bytes) : Prop := ∃ before byte, root = before ++ [byte] ∧ byte ≠ separator

theorem IsComponent.isRoot {component : Bytes} (valid : IsComponent component) : IsRoot component := by
  rcases List.eq_nil_or_concat component with empty | ⟨before, byte, split⟩
  · exact absurd empty valid.1
  · rw [List.concat_eq_append] at split
    refine ⟨before, byte, split, ?_⟩
    rintro rfl
    apply valid.2
    rw [split]
    exact List.mem_append_right _ List.mem_cons_self

theorem IsRoot.append {root rest : Bytes} (valid : IsRoot rest) : IsRoot (root ++ rest) := by
  obtain ⟨before, byte, rfl, other⟩ := valid
  exact ⟨root ++ before, byte, (List.append_assoc _ _ _).symm, other⟩

theorem belowPath_append (components more : List Bytes) :
    belowPath (components ++ more) = belowPath components ++ belowPath more :=
  List.flatMap_append

theorem belowPath_cons (component : Bytes) (rest : List Bytes) :
    belowPath (component :: rest) = separator :: (component ++ belowPath rest) := rfl

theorem belowPath_singleton (component : Bytes) : belowPath [component] = separator :: component := by
  rw [belowPath_cons, belowPath, List.flatMap_nil, List.append_nil]

/-- Adding components to a root gives a root. -/
theorem IsRoot.below {root : Bytes} (valid : IsRoot root) (components : List Bytes)
    (names : ∀ component ∈ components, IsComponent component) : IsRoot (root ++ belowPath components) := by
  rcases List.eq_nil_or_concat components with rfl | ⟨before, last, rfl⟩
  · rw [belowPath, List.flatMap_nil, List.append_nil]
    exact valid
  · rw [List.concat_eq_append, belowPath_append, belowPath_singleton, ← List.append_assoc,
      List.append_cons]
    exact (names last (by simp)).isRoot.append

theorem canonicalize_of_isRoot {path : Bytes} (valid : IsRoot path) : canonicalize path = path := by
  obtain ⟨before, byte, rfl, other⟩ := valid
  rw [canonicalize, List.reverse_append, List.reverse_singleton, List.singleton_append,
    List.dropWhile_cons_of_neg (by simpa using other), List.reverse_cons, List.reverse_reverse]

/-- How a path is put together with a component. -/
theorem addComponent_eq (path : Bytes) {name : Bytes} (valid : IsComponent name) :
    addComponent path name = if path = [] ∨ path = [separator] then path ++ name
      else path ++ separator :: name := by
  rw [addComponent]
  split
  · exact canonicalize_of_isRoot valid.isRoot.append
  · rw [List.append_assoc]
    exact canonicalize_of_isRoot (by
      rw [← List.append_assoc]
      exact valid.isRoot.append)

theorem chopBackToChar_component {component : Bytes} (valid : separator ∉ component)
    (before : Bytes) : chopBackToChar separator (before ++ separator :: component) = some before := by
  have skipped : ∀ rest, (component.reverse ++ rest).dropWhile (· ≠ separator) =
      rest.dropWhile (· ≠ separator) := by
    intro rest
    apply List.dropWhile_append_of_pos
    intro byte member
    rw [List.mem_reverse] at member
    simpa using fun same : byte = separator => valid (same ▸ member)
  rw [chopBackToChar, List.reverse_append, List.reverse_cons, List.append_assoc, skipped]
  simp

theorem chopBackToChar_none {text : Bytes} (absent : separator ∉ text) :
    chopBackToChar separator text = none := by
  have skipped : text.reverse.dropWhile (· ≠ separator) = [] := by
    apply List.dropWhile_eq_nil_iff.mpr
    intro byte member
    rw [List.mem_reverse] at member
    simpa using fun same : byte = separator => absent (same ▸ member)
  rw [chopBackToChar, skipped]

/-- The last component is removed together with its separator. -/
theorem removeComponent_below {root component : Bytes} (valid : IsRoot root)
    (name : IsComponent component) : removeComponent (root ++ separator :: component) = root := by
  have canonical : canonicalize (root ++ separator :: component) = root ++ separator :: component := by
    apply canonicalize_of_isRoot
    rw [List.append_cons]
    exact name.isRoot.append
  rw [removeComponent, canonical, chopBackToChar_component name.2]
  obtain ⟨before, byte, rfl, other⟩ := valid
  simp [other]

theorem removeComponent_component {component : Bytes} (name : IsComponent component) :
    removeComponent component = [] := by
  rw [removeComponent, canonicalize_of_isRoot name.isRoot, chopBackToChar_none name.2]

theorem removeComponent_joinPath (components : List Bytes)
    (names : ∀ component ∈ components, IsComponent component) :
    removeComponent (joinPath components) = joinPath components.dropLast := by
  cases components with
  | nil => rfl
  | cons first rest =>
      have firstName := names first List.mem_cons_self
      rcases List.eq_nil_or_concat rest with rfl | ⟨before, last, rfl⟩
      · rw [joinPath, belowPath, List.flatMap_nil, List.append_nil, removeComponent_component firstName]
        rfl
      · rw [List.concat_eq_append] at names ⊢
        rw [joinPath, belowPath_append, belowPath_singleton, ← List.append_assoc,
          removeComponent_below (firstName.isRoot.below before fun name member =>
            names name (by simp [member])) (names last (by simp))]
        rw [← List.cons_append, List.dropLast_concat, joinPath]

theorem joinPath_append {components : List Bytes} (more : List Bytes) (nonempty : components ≠ []) :
    joinPath (components ++ more) = joinPath components ++ belowPath more := by
  cases components with
  | nil => exact absurd rfl nonempty
  | cons first rest => rw [List.cons_append, joinPath, joinPath, belowPath_append, List.append_assoc]

theorem joinPath_singleton (component : Bytes) : joinPath [component] = component :=
  List.append_nil component

theorem joinPath_ne_nil {components : List Bytes} (names : ∀ component ∈ components, IsComponent component)
    (nonempty : components ≠ []) : joinPath components ≠ [] := by
  cases components with
  | nil => exact absurd rfl nonempty
  | cons first rest =>
      rw [joinPath]
      exact List.append_ne_nil_of_left_ne_nil (names first List.mem_cons_self).1 _

/-- A shorter path has a shorter text. -/
theorem joinPath_length_lt {components more : List Bytes}
    (names : ∀ component ∈ components ++ more, IsComponent component) (nonempty : more ≠ []) :
    (joinPath components).length < (joinPath (components ++ more)).length := by
  by_cases empty : components = []
  · subst empty
    exact List.length_pos_iff.mpr (joinPath_ne_nil names nonempty)
  · rw [joinPath_append more empty, List.length_append]
    cases more with
    | nil => exact absurd rfl nonempty
    | cons first rest =>
        rw [belowPath_cons, List.length_cons]
        omega

end Components

section Ancestors

/-- A common beginning is skipped. -/
theorem skipCommon_append (common : Bytes) :
    ∀ (position lastDirsep : Nat) (rest₁ rest₂ : Bytes), ∃ lastDirsep',
      skipCommon position lastDirsep (common ++ rest₁) (common ++ rest₂) =
        skipCommon (position + common.length) lastDirsep' rest₁ rest₂ := by
  induction common with
  | nil => exact fun position lastDirsep _ _ => ⟨lastDirsep, rfl⟩
  | cons byte common ih =>
      intro position lastDirsep rest₁ rest₂
      obtain ⟨lastDirsep', skipped⟩ := ih (position + 1)
        (if byte = separator then position else lastDirsep) rest₁ rest₂
      refine ⟨lastDirsep', ?_⟩
      rw [List.cons_append, List.cons_append, skipCommon, if_pos rfl, skipped, List.length_cons]
      congr 1
      omega

/-- No separator is seen in a component. -/
theorem skipCommon_component (component : Bytes) (name : separator ∉ component) :
    ∀ (position lastDirsep : Nat) (rest₁ rest₂ : Bytes),
      skipCommon position lastDirsep (component ++ rest₁) (component ++ rest₂) =
        skipCommon (position + component.length) lastDirsep rest₁ rest₂ := by
  induction component with
  | nil => exact fun _ _ _ _ => rfl
  | cons byte component ih =>
      intro position lastDirsep rest₁ rest₂
      rw [List.mem_cons, not_or] at name
      rw [List.cons_append, List.cons_append, skipCommon, if_pos rfl, if_neg (Ne.symm name.1),
        ih name.2, List.length_cons]
      congr 1
      omega

/-- What follows a component: nothing, or a separator. -/
def AfterComponent (rest : Bytes) : Prop := rest = [] ∨ ∃ more, rest = separator :: more

theorem afterComponent_belowPath (components : List Bytes) : AfterComponent (belowPath components) := by
  cases components with
  | nil => exact .inl rfl
  | cons component rest => exact .inr ⟨_, belowPath_cons component rest⟩

/-- Two components differ before either of them ends at a separator. -/
theorem skipCommon_components_ne {rest₁ rest₂ : Bytes} (after₁ : AfterComponent rest₁)
    (after₂ : AfterComponent rest₂) (component₁ : Bytes) (name₁ : separator ∉ component₁) :
    ∀ (component₂ : Bytes), separator ∉ component₂ → component₁ ≠ component₂ →
      ∀ (position lastDirsep : Nat), ∃ count,
        skipCommon position lastDirsep (component₁ ++ rest₁) (component₂ ++ rest₂) =
          (position + count, lastDirsep) ∧
        ¬ EndsAtSeparator count (component₁ ++ rest₁) (component₂ ++ rest₂) := by
  induction component₁ with
  | nil =>
      intro component₂ name₂ differ position lastDirsep
      cases component₂ with
      | nil => exact absurd rfl differ
      | cons byte component₂ =>
          rw [List.mem_cons, not_or] at name₂
          refine ⟨0, ?_, ?_⟩
          · rcases after₁ with rfl | ⟨more, rfl⟩
            · rfl
            · rw [List.nil_append, List.cons_append, skipCommon, if_neg name₂.1]
              rfl
          · rcases after₁ with rfl | ⟨more, rfl⟩
            · simp [EndsAtSeparator, Ne.symm name₂.1]
            · simp [EndsAtSeparator]
  | cons byte component₁ ih =>
      intro component₂ name₂ differ position lastDirsep
      rw [List.mem_cons, not_or] at name₁
      cases component₂ with
      | nil =>
          refine ⟨0, ?_, ?_⟩
          · rcases after₂ with rfl | ⟨more, rfl⟩
            · rfl
            · rw [List.nil_append, List.cons_append, skipCommon, if_neg (Ne.symm name₁.1)]
              rfl
          · rcases after₂ with rfl | ⟨more, rfl⟩
            · simp [EndsAtSeparator, Ne.symm name₁.1]
            · simp [EndsAtSeparator]
      | cons other component₂ =>
          rw [List.mem_cons, not_or] at name₂
          by_cases same : byte = other
          · subst same
            obtain ⟨count, skipped, inside⟩ := ih name₁.2 component₂ name₂.2
              (fun equal => differ (by rw [equal])) (position + 1) lastDirsep
            refine ⟨count + 1, ?_, ?_⟩
            · rw [List.cons_append, List.cons_append, skipCommon, if_pos rfl,
                if_neg (Ne.symm name₁.1), skipped]
              congr 1
              omega
            · simpa [EndsAtSeparator] using inside
          · refine ⟨0, ?_, ?_⟩
            · rw [List.cons_append, List.cons_append, skipCommon, if_neg same]
              rfl
            · simp [EndsAtSeparator]

theorem endsAtSeparator_append (common path₁ path₂ : Bytes) (position : Nat) :
    EndsAtSeparator (common.length + position) (common ++ path₁) (common ++ path₂) ↔
      EndsAtSeparator position path₁ path₂ := by
  have shifted : ∀ path : Bytes, (common ++ path)[common.length + position]? = path[position]? := by
    intro path
    rw [List.getElem?_append_right (Nat.le_add_right _ _), Nat.add_sub_cancel_left]
  simp [EndsAtSeparator, shifted]

/-- Below a common beginning, the common components are found. -/
theorem commonText_below (components₁ : List Bytes) :
    ∀ (components₂ : List Bytes) (root : Bytes) (lastDirsep : Nat),
      (∀ component ∈ components₁, separator ∉ component) →
      (∀ component ∈ components₂, separator ∉ component) →
      commonText (root ++ belowPath components₁) (root ++ belowPath components₂)
        (skipCommon root.length lastDirsep (belowPath components₁) (belowPath components₂)) =
          root ++ belowPath (sharedPath components₁ components₂) := by
  induction components₁ with
  | nil =>
      intro components₂ root lastDirsep _ _
      have ends : EndsAtSeparator root.length (root ++ []) (root ++ belowPath components₂) := by
        rw [← Nat.add_zero root.length, endsAtSeparator_append]
        cases components₂ with
        | nil => exact .inr (.inr ⟨rfl, rfl⟩)
        | cons component rest => exact .inl ⟨rfl, rfl⟩
      rw [belowPath, List.flatMap_nil, skipCommon, commonText]
      · rw [if_pos ends, List.append_nil, List.take_length]
        cases components₂ <;> simp [sharedPath, belowPath]
      · simp
  | cons component₁ components₁ ih =>
      intro components₂ root lastDirsep names₁ names₂
      cases components₂ with
      | nil =>
          have ends : EndsAtSeparator root.length (root ++ belowPath (component₁ :: components₁))
              (root ++ []) := by
            rw [← Nat.add_zero root.length, endsAtSeparator_append]
            exact .inr (.inl ⟨rfl, rfl⟩)
          have skipped : skipCommon root.length lastDirsep (belowPath (component₁ :: components₁)) [] =
              (root.length, lastDirsep) := rfl
          rw [show belowPath [] = [] from rfl, skipped, commonText, if_pos ends, List.take_left]
          simp [sharedPath, belowPath]
      | cons component₂ components₂ =>
          have name₁ := names₁ component₁ List.mem_cons_self
          have name₂ := names₂ component₂ List.mem_cons_self
          rw [sharedPath, belowPath_cons, belowPath_cons, skipCommon, if_pos rfl, if_pos rfl]
          by_cases same : component₁ = component₂
          · subst same
            have step := ih components₂ (root ++ separator :: component₁) root.length
              (fun name member => names₁ name (List.mem_cons_of_mem _ member))
              (fun name member => names₂ name (List.mem_cons_of_mem _ member))
            rw [if_pos rfl, skipCommon_component component₁ name₁, belowPath_cons]
            simpa [Nat.add_assoc, Nat.add_comm 1] using step
          · obtain ⟨count, skipped, inside⟩ := skipCommon_components_ne
              (afterComponent_belowPath components₁) (afterComponent_belowPath components₂)
              component₁ name₁ component₂ name₂ same (root.length + 1) root.length
            have between : ¬ EndsAtSeparator (root.length + 1 + count)
                (root ++ separator :: (component₁ ++ belowPath components₁))
                (root ++ separator :: (component₂ ++ belowPath components₂)) := by
              have shifted := endsAtSeparator_append (root ++ [separator])
                (component₁ ++ belowPath components₁) (component₂ ++ belowPath components₂) count
              simp only [List.length_append, List.length_singleton, List.append_assoc,
                List.singleton_append] at shifted
              rw [shifted]
              exact inside
            rw [if_neg same, skipped, commonText, if_neg between, List.take_left]
            simp [belowPath]

theorem sharedPath_mem {components₁ components₂ : List Bytes} {component : Bytes}
    (member : component ∈ sharedPath components₁ components₂) : component ∈ components₁ :=
  (sharedPath_prefix_left components₁ components₂).subset member

/-- Two paths below one root have the common components as their longest ancestor. -/
theorem getLongestAncestor_below {root : Bytes} (valid : IsRoot root) (components₁ components₂ : List Bytes)
    (names₁ : ∀ component ∈ components₁, IsComponent component)
    (names₂ : ∀ component ∈ components₂, IsComponent component) :
    getLongestAncestor (root ++ belowPath components₁) (root ++ belowPath components₂) =
      some (root ++ belowPath (sharedPath components₁ components₂)) := by
  have nonempty : ∀ rest, root ++ rest ≠ [] := by
    obtain ⟨before, byte, rfl, -⟩ := valid
    simp
  obtain ⟨lastDirsep, skipped⟩ := skipCommon_append root 0 0 (belowPath components₁)
    (belowPath components₂)
  rw [getLongestAncestor, if_neg (by simp only [nonempty, or_self, not_false_eq_true]), skipped,
    Nat.zero_add, commonText_below components₁ components₂ root lastDirsep
      (fun name member => (names₁ name member).2) fun name member => (names₂ name member).2]
  rw [canonicalize_of_isRoot (valid.below _ fun name member => names₁ name (sharedPath_mem member))]

/-- Two relative paths have the common components as their longest ancestor, possibly none. -/
theorem getLongestAncestor_joinPath (components₁ components₂ : List Bytes)
    (names₁ : ∀ component ∈ components₁, IsComponent component)
    (names₂ : ∀ component ∈ components₂, IsComponent component) :
    (getLongestAncestor (joinPath components₁) (joinPath components₂)).getD [] =
      joinPath (sharedPath components₁ components₂) := by
  cases components₁ with
  | nil => rfl
  | cons component₁ rest₁ =>
      cases components₂ with
      | nil => simp [getLongestAncestor, joinPath, sharedPath]
      | cons component₂ rest₂ =>
          have name₁ := names₁ component₁ List.mem_cons_self
          have name₂ := names₂ component₂ List.mem_cons_self
          rw [joinPath, joinPath, sharedPath]
          by_cases same : component₁ = component₂
          · subst same
            rw [if_pos rfl, joinPath, getLongestAncestor_below name₁.isRoot rest₁ rest₂
              (fun name member => names₁ name (List.mem_cons_of_mem _ member))
              (fun name member => names₂ name (List.mem_cons_of_mem _ member))]
            rfl
          · obtain ⟨count, skipped, inside⟩ := skipCommon_components_ne
              (afterComponent_belowPath rest₁) (afterComponent_belowPath rest₂)
              component₁ name₁.2 component₂ name₂.2 same 0 0
            have nonempty : ¬ (component₁ ++ belowPath rest₁ = [] ∨ component₂ ++ belowPath rest₂ = []) := by
              simp [name₁.1, name₂.1]
            rw [Nat.zero_add] at skipped
            rw [getLongestAncestor, if_neg nonempty, skipped, commonText, if_neg inside, if_neg same]
            rfl

/-- A path whose text is the one of another path begins with its components. -/
theorem prefix_of_joinPath_eq {components₁ components₂ : List Bytes}
    (names₁ : ∀ component ∈ components₁, IsComponent component)
    (names₂ : ∀ component ∈ components₂, IsComponent component)
    (same : joinPath components₁ = joinPath components₂) : components₁ <+: components₂ := by
  have whole : sharedPath components₁ components₁ = components₁ :=
    (sharedPath_prefix_left components₁ components₁).eq_of_length_le
      (prefix_sharedPath components₁ (List.prefix_refl _) (List.prefix_refl _)).length_le
  have ancestors := getLongestAncestor_joinPath components₁ components₁ names₁ names₁
  rw [whole] at ancestors
  have common := getLongestAncestor_joinPath components₁ components₂ names₁ names₂
  rw [← same, ancestors] at common
  obtain ⟨rest, split⟩ := sharedPath_prefix_left components₁ components₂
  have nothing : rest = [] := by
    by_contra more
    have shorter := joinPath_length_lt (split.symm ▸ names₁) more
    rw [split, common] at shorter
    exact Nat.lt_irrefl _ shorter
  rw [nothing, List.append_nil] at split
  rw [← split]
  exact sharedPath_prefix_right components₁ components₂

theorem joinPath_injective {components₁ components₂ : List Bytes}
    (names₁ : ∀ component ∈ components₁, IsComponent component)
    (names₂ : ∀ component ∈ components₂, IsComponent component)
    (same : joinPath components₁ = joinPath components₂) : components₁ = components₂ :=
  (prefix_of_joinPath_eq names₁ names₂ same).eq_of_length_le
    (prefix_of_joinPath_eq names₂ names₁ same.symm).length_le

end Ancestors

end Subversion.Subr
