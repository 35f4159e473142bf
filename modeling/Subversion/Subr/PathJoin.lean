/-
This file shows when many components are joined as they would be one after the other.
-/

import Subversion.Error
import Subversion.Subr.Path

namespace Subversion.Subr

open Delta

/-- An absolute component replaces the base. One trailing separator of the base is not doubled. -/
def pathJoin (base component : Bytes) : Bytes :=
  if base = [] ∨ component.head? = some separator then component
  else if component = [] then base
  else (if base.getLast? = some separator then base.dropLast else base) ++ separator :: component

def maxSavedLengths : Nat := 10

/-- What the first pass knows: the length of the result, how many components it has seen, which
argument the result starts with, and the lengths of the first arguments. -/
structure LengthPass where
  totalLen : Nat
  nargs : Nat
  baseArg : Nat
  baseIsRoot : Bool
  savedLengths : List Nat
  deriving DecidableEq, Repr

/-- A trailing separator is not counted, but for the root. -/
def componentLength (component : Bytes) : Nat :=
  if 1 < component.length ∧ component.getLast? = some separator then component.length - 1
  else component.length

/-- Before the length of the base is looked at, its last byte is read, so an empty base is left. -/
def startLengths (base : Bytes) : Except SvnError LengthPass :=
  if base = [] then .error SvnError.undefinedBehaviour
  else if base.getLast? = some separator then
    if base.length = 1 then .ok ⟨1, 0, 0, true, [1]⟩
    else .ok ⟨base.length - 1, 0, 0, false, [base.length - 1]⟩
  else .ok ⟨base.length, 0, 0, false, [base.length]⟩

/-- The length of this component, at an index one behind the number that was compared. -/
def saveLength (pass : LengthPass) (len : Nat) : Except SvnError (List Nat) :=
  if pass.nargs < maxSavedLengths then
    if pass.nargs + 1 < maxSavedLengths then .ok (pass.savedLengths ++ [len])
    else .error SvnError.undefinedBehaviour
  else .ok pass.savedLengths

def addLength (pass : LengthPass) (component : Bytes) : Except SvnError LengthPass := do
  let len := componentLength component
  let savedLengths ← saveLength pass len
  let pass := { pass with nargs := pass.nargs + 1, savedLengths := savedLengths }
  if len = 0 then
    return if pass.totalLen = 0 then { pass with baseArg := pass.nargs + 1 } else pass
  else if component.head? = some separator then
    return { pass with totalLen := len, baseArg := pass.nargs, baseIsRoot := len = 1 }
  else if pass.nargs = pass.baseArg ∨ (pass.nargs = pass.baseArg + 1 ∧ pass.baseIsRoot = true) then
    return { pass with totalLen := pass.totalLen + len }
  else return { pass with totalLen := pass.totalLen + 1 + len }

/-- A length that was not saved is found again. -/
def lengthOf (pass : LengthPass) (nargs : Nat) (component : Bytes) : Except SvnError Nat :=
  if nargs < maxSavedLengths then
    match pass.savedLengths[nargs]? with
    | some len => .ok len
    | none => .error SvnError.undefinedBehaviour
  else .ok (componentLength component)

/-- No separator goes to the start, or behind another one. -/
def copyComponent (path component : Bytes) : Bytes :=
  if path ≠ [] ∧ path.getLast? ≠ some separator then path ++ separator :: component
  else path ++ component

/-- The second pass, from this argument on. -/
def copyComponents (pass : LengthPass) : Nat → Bytes → List Bytes → Except SvnError Bytes
  | _, path, [] => .ok path
  | nargs, path, component :: components =>
      if nargs < pass.baseArg then copyComponents pass (nargs + 1) path components
      else do
        let len ← lengthOf pass nargs component
        if len = 0 then copyComponents pass (nargs + 1) path components
        else copyComponents pass (nargs + 1) (copyComponent path (component.take len)) components

/-- Both passes must come to the same length. -/
def pathJoinMany (base : Bytes) (components : List Bytes) : Except SvnError Bytes := do
  let pass ← components.foldlM addLength (← startLengths base)
  if pass.baseIsRoot = true ∧ pass.totalLen = 1 then return [separator]
  else
    let start ← if pass.baseArg = 0 then do
        let len ← lengthOf pass 0 base
        pure (base.take len)
      else pure []
    let path ← copyComponents pass 1 start components
    if pass.totalLen < path.length then .error SvnError.undefinedBehaviour
    else if path.length ≠ pass.totalLen then .error SvnError.assertion
    else return path

/-- No trailing separator, but for the root. -/
def Canonical (path : Bytes) : Prop := path = [separator] ∨ path.getLast? ≠ some separator

instance : DecidablePred Canonical := fun _ => inferInstanceAs (Decidable (_ ∨ _))

/-- What the result starts with, the base or the last absolute component, and what comes behind. -/
def lastAbsolute (base : Bytes) (components : List Bytes) : Bytes × List Bytes :=
  components.foldl (fun found component =>
    if component.head? = some separator then (component, []) else (found.1, found.2 ++ [component]))
    (base, [])

/-- Directly behind the root there is no empty component, unless there are only empty ones. Behind
one trailing separator of a longer base there is something to add. -/
def JoinsAlike (start : Bytes) (rest : List Bytes) : Prop :=
  if start = [separator] then rest.head? = some [] → ∀ component ∈ rest, component = []
  else start.getLast? = some separator →
    start.dropLast.getLast? ≠ some separator ∧ ∃ component ∈ rest, component ≠ []

section Lengths

variable {base start component : Bytes} {components rest : List Bytes} {pass : LengthPass}

theorem lastAbsolute_concat (base : Bytes) (components : List Bytes) (component : Bytes) :
    lastAbsolute base (components ++ [component]) =
      if component.head? = some separator then (component, [])
      else ((lastAbsolute base components).1, (lastAbsolute base components).2 ++ [component]) := by
  rw [lastAbsolute, List.foldl_append]
  rfl

/-- The start is the base, or a component in the list. -/
theorem lastAbsolute_split (base : Bytes) (components : List Bytes) :
    lastAbsolute base components = (base, components) ∨
      ∃ before start rest, components = before ++ start :: rest ∧
        lastAbsolute base components = (start, rest) ∧ start.head? = some separator := by
  induction components using List.reverseRecOn with
  | nil => exact .inl rfl
  | append_singleton components component ih =>
      rw [lastAbsolute_concat]
      by_cases absolute : component.head? = some separator
      · rw [if_pos absolute]
        exact .inr ⟨components, component, [], rfl, rfl, absolute⟩
      · rw [if_neg absolute]
        rcases ih with same | ⟨before, start, rest, rfl, same, found⟩
        · rw [same]
          exact .inl rfl
        · rw [same]
          exact .inr ⟨before, start, rest ++ [component], by simp, rfl, found⟩

theorem lastAbsolute_relative (base : Bytes) (components : List Bytes) :
    ∀ component ∈ (lastAbsolute base components).2, component.head? ≠ some separator := by
  induction components using List.reverseRecOn with
  | nil => exact fun _ member => absurd member List.not_mem_nil
  | append_singleton components component ih =>
      rw [lastAbsolute_concat]
      split
      · exact fun _ member => absurd member List.not_mem_nil
      · next relative =>
          intro other member
          rcases List.mem_append.mp member with earlier | last
          · exact ih other earlier
          · rw [List.mem_singleton.mp last]
            exact relative

theorem componentLength_of_canonical (canonical : Canonical component) :
    componentLength component = component.length := by
  rw [componentLength, if_neg]
  rintro ⟨long, isLast⟩
  rcases canonical with rfl | other
  · exact absurd long (by decide)
  · exact other isLast

theorem componentLength_pos (nonempty : component ≠ []) : 0 < componentLength component := by
  have long := List.length_pos_iff.mpr nonempty
  rw [componentLength]
  split
  · omega
  · exact long

/-- A component that is not empty comes with a separator. -/
def addedLength (component : Bytes) : Nat := if component = [] then 0 else component.length + 1

/-- Directly behind the root no separator is counted. -/
def savedSeparator (start : Bytes) (rest : List Bytes) : Nat :=
  if start = [separator] ∧ ∃ component ∈ rest.head?, component ≠ [] then 1 else 0

theorem savedSeparator_le (start : Bytes) (rest : List Bytes) :
    savedSeparator start rest ≤ (rest.map addedLength).sum := by
  rw [savedSeparator]
  split
  · next saved =>
      obtain ⟨-, component, isHead, nonempty⟩ := saved
      obtain ⟨more, rfl⟩ := List.head?_eq_some_iff.mp isHead
      rw [List.map_cons, List.sum_cons, addedLength, if_neg nonempty]
      omega
  · exact Nat.zero_le _

theorem savedSeparator_concat (nonempty : rest ≠ []) :
    savedSeparator start (rest ++ [component]) = savedSeparator start rest := by
  rw [savedSeparator, savedSeparator, List.head?_append_of_ne_nil _ nonempty]

/-- What the first pass has found. -/
structure Counted (base : Bytes) (components : List Bytes) (start : Bytes) (rest : List Bytes)
    (pass : LengthPass) : Prop where
  nargs : pass.nargs = components.length
  saved : pass.savedLengths = (base :: components).map componentLength
  baseArg : pass.baseArg + rest.length = components.length
  root : pass.baseIsRoot = true ↔ start = [separator]
  total : pass.totalLen + savedSeparator start rest =
    componentLength start + (rest.map addedLength).sum
  nonempty : start ≠ []

theorem startLengths_counted (nonempty : base ≠ []) :
    ∃ pass, startLengths base = .ok pass ∧ Counted base [] base [] pass := by
  have none : savedSeparator base [] = 0 := by simp [savedSeparator]
  rw [startLengths, if_neg nonempty]
  split
  · next isLast =>
      split
      · next single =>
          obtain ⟨byte, rfl⟩ := List.length_eq_one_iff.mp single
          obtain rfl : byte = separator := by simpa using isLast
          exact ⟨_, rfl, rfl, by simp [componentLength], rfl, by simp, by simp [none, componentLength],
            nonempty⟩
      · next long =>
          have longer : 1 < base.length := by
            have := List.length_pos_iff.mpr nonempty
            omega
          have counted : componentLength base = base.length - 1 := by
            rw [componentLength, if_pos ⟨longer, isLast⟩]
          exact ⟨_, rfl, rfl, by simp [counted], rfl, by
            simp only [Bool.false_eq_true, false_iff]
            rintro rfl
            exact long rfl, by simp [none, counted], nonempty⟩
  · next other =>
      have counted : componentLength base = base.length := componentLength_of_canonical (.inr other)
      exact ⟨_, rfl, rfl, by simp [counted], rfl, by
        simp only [Bool.false_eq_true, false_iff]
        rintro rfl
        exact other rfl, by simp [none, counted], nonempty⟩

theorem Counted.total_pos (counted : Counted base components start rest pass) : 0 < pass.totalLen := by
  have positive := componentLength_pos counted.nonempty
  have fewer := savedSeparator_le start rest
  have total := counted.total
  omega

/-- One component more. -/
theorem Counted.addLength (counted : Counted base components start rest pass)
    (canonical : Canonical component) (room : components.length + 1 < maxSavedLengths) :
    ∃ next, Subr.addLength pass component = .ok next ∧
      if component.head? = some separator then
        Counted base (components ++ [component]) component [] next
      else Counted base (components ++ [component]) start (rest ++ [component]) next := by
  have whole := componentLength_of_canonical canonical
  have saving : saveLength pass component.length = .ok (pass.savedLengths ++ [component.length]) := by
    rw [saveLength, counted.nargs, if_pos (by omega), if_pos room]
  have lengths : pass.savedLengths ++ [component.length] =
      (base :: (components ++ [component])).map componentLength := by
    rw [counted.saved]
    simp [whole]
  have nargs := counted.nargs
  have baseArg := counted.baseArg
  have total := counted.total
  have positive := counted.total_pos
  rw [Subr.addLength, whole, saving]
  dsimp only [bind, Except.bind, pure, Except.pure]
  by_cases empty : component = []
  · subst empty
    have relative : ¬ ([] : Bytes).head? = some separator := by simp
    simp only [if_pos List.length_nil, if_neg positive.ne', if_neg relative]
    refine ⟨_, rfl, by simp [nargs], lengths, by simp; omega, counted.root, ?_, counted.nonempty⟩
    have same : savedSeparator start (rest ++ [[]]) = savedSeparator start rest := by
      by_cases first : rest = []
      · subst first
        simp [savedSeparator]
      · exact savedSeparator_concat first
    rw [same, List.map_append, List.sum_append]
    simpa [addedLength] using total
  · have long := List.length_pos_iff.mpr empty
    rw [if_neg long.ne']
    by_cases absolute : component.head? = some separator
    · simp only [if_pos absolute]
      refine ⟨_, rfl, by simp [nargs], lengths, by simp [nargs], ?_, ?_, empty⟩
      · obtain ⟨more, rfl⟩ := List.head?_eq_some_iff.mp absolute
        simp
      · simp [savedSeparator, whole]
    · simp only [if_neg absolute]
      have added : addedLength component = component.length + 1 := if_neg empty
      by_cases behindRoot : rest = [] ∧ start = [separator]
      · obtain ⟨rfl, rfl⟩ := behindRoot
        have atBase : pass.baseArg = components.length := by simpa using baseArg
        rw [if_pos (.inr ⟨by omega, counted.root.mpr rfl⟩)]
        refine ⟨_, rfl, by simp [nargs], lengths, by simp; omega, counted.root, ?_, counted.nonempty⟩
        simp [savedSeparator, empty, added] at total ⊢
        omega
      · have counts : ¬ (pass.nargs + 1 = pass.baseArg ∨
            (pass.nargs + 1 = pass.baseArg + 1 ∧ pass.baseIsRoot = true)) := by
          rintro (same | ⟨behind, isRoot⟩)
          · omega
          · exact behindRoot ⟨List.length_eq_zero_iff.mp (by omega), counted.root.mp isRoot⟩
        rw [if_neg counts]
        refine ⟨_, rfl, by simp [nargs], lengths, by simp; omega, counted.root, ?_, counted.nonempty⟩
        have same : savedSeparator start (rest ++ [component]) = savedSeparator start rest := by
          by_cases first : rest = []
          · have other : start ≠ [separator] := fun isRoot => behindRoot ⟨first, isRoot⟩
            simp [savedSeparator, other]
          · exact savedSeparator_concat first
        rw [same, List.map_append, List.sum_append]
        simp [added]
        omega

/-- The first pass counts up to nine components. -/
theorem addLength_counted (nonempty : base ≠ []) (components : List Bytes)
    (canonical : ∀ component ∈ components, Canonical component)
    (room : components.length < maxSavedLengths) :
    ∃ first pass, startLengths base = .ok first ∧ components.foldlM addLength first = .ok pass ∧
      Counted base components (lastAbsolute base components).1 (lastAbsolute base components).2 pass := by
  induction components using List.reverseRecOn with
  | nil =>
      obtain ⟨pass, started, counted⟩ := startLengths_counted nonempty
      exact ⟨pass, pass, started, rfl, counted⟩
  | append_singleton components component ih =>
      rw [List.length_append, List.length_singleton] at room
      obtain ⟨first, pass, started, ran, counted⟩ := ih
        (fun other member => canonical other (List.mem_append_left _ member)) (by omega)
      obtain ⟨next, added, after⟩ := counted.addLength
        (canonical component (List.mem_append_right _ (List.mem_singleton_self _))) room
      refine ⟨first, next, started, ?_, ?_⟩
      · rw [List.foldlM_append, ran]
        show [component].foldlM addLength pass = .ok next
        rw [List.foldlM_cons, added]
        rfl
      · rw [lastAbsolute_concat]
        split at after
        · next absolute =>
            rw [if_pos absolute]
            exact after
        · next relative =>
            rw [if_neg relative]
            exact after

/-- The tenth component is saved behind the array. -/
theorem addLength_full (nonempty : base ≠ []) (components : List Bytes)
    (canonical : ∀ component ∈ components, Canonical component)
    (full : maxSavedLengths ≤ components.length) {first : LengthPass}
    (started : startLengths base = .ok first) :
    components.foldlM addLength first = .error SvnError.undefinedBehaviour := by
  obtain ⟨before, component, after, rfl, nine⟩ : ∃ before component after,
      components = before ++ component :: after ∧ before.length = 9 := by
    have long : 9 < components.length := full
    refine ⟨components.take 9, components[9], components.drop 10, ?_, ?_⟩
    · rw [List.getElem_cons_drop, List.take_append_drop]
    · rw [List.length_take]
      exact Nat.min_eq_left long.le
  obtain ⟨again, pass, same, ran, counted⟩ := addLength_counted nonempty before
    (fun other member => canonical other (List.mem_append_left _ member)) (by rw [nine]; decide)
  rw [started] at same
  obtain rfl := Except.ok.inj same
  have overrun : addLength pass component = .error SvnError.undefinedBehaviour := by
    rw [addLength, saveLength, counted.nargs, nine]
    rfl
  rw [List.foldlM_append, ran]
  show (component :: after).foldlM addLength pass = _
  rw [List.foldlM_cons, overrun]
  rfl

end Lengths

section Copies

variable {base start path component : Bytes} {components rest : List Bytes} {pass : LengthPass}

/-- The components that are not empty, one after the other. -/
def appendComponent (path component : Bytes) : Bytes :=
  if component = [] then path else copyComponent path component

theorem copyComponents_skip (before : List Bytes) :
    ∀ nargs, nargs + before.length ≤ pass.baseArg → ∀ components,
      copyComponents pass nargs path (before ++ components) =
        copyComponents pass (nargs + before.length) path components := by
  induction before with
  | nil => exact fun _ _ _ => rfl
  | cons first before ih =>
      intro nargs skipped components
      rw [List.length_cons] at skipped
      rw [List.cons_append, copyComponents, if_pos (by omega), ih (nargs + 1) (by omega)]
      congr 1
      rw [List.length_cons]
      omega

/-- From the start on, each component is copied as a whole. -/
theorem copyComponents_copies (rest : List Bytes) :
    ∀ nargs path, pass.baseArg ≤ nargs → (∀ component ∈ rest, Canonical component) →
      (∀ index component, rest[index]? = some component →
        pass.savedLengths[nargs + index]? = some (componentLength component)) →
      copyComponents pass nargs path rest = .ok (rest.foldl appendComponent path) := by
  induction rest with
  | nil => exact fun _ _ _ _ _ => rfl
  | cons component rest ih =>
      intro nargs path reached canonical saved
      have whole := componentLength_of_canonical (canonical component List.mem_cons_self)
      have isSaved : pass.savedLengths[nargs]? = some (componentLength component) :=
        saved 0 component rfl
      have found : lengthOf pass nargs component = .ok component.length := by
        rw [lengthOf, isSaved, whole]
        split <;> rfl
      have later := ih (nargs + 1) (appendComponent path component) (by omega)
        (fun other member => canonical other (.tail _ member)) fun index other isOther => by
          rw [Nat.add_right_comm]
          exact saved (index + 1) other isOther
      rw [copyComponents, if_neg (by omega), found, List.foldl_cons, ← later]
      by_cases empty : component = []
      · subst empty
        rfl
      · show (if component.length = 0 then _ else _) = _
        rw [if_neg (List.length_pos_iff.mpr empty).ne', List.take_length, appendComponent,
          if_neg empty]

/-- The second pass starts with the base or with the last absolute component. -/
theorem Counted.copies (counted : Counted base components start rest pass)
    (canonical : ∀ component ∈ components, Canonical component)
    (found : lastAbsolute base components = (start, rest)) :
    ∃ first, (if pass.baseArg = 0 then (lengthOf pass 0 base).map fun len => base.take len else .ok []) =
        .ok first ∧
      copyComponents pass 1 first components =
        .ok (rest.foldl appendComponent (start.take (componentLength start))) := by
  have saved (index : Nat) (component : Bytes) (isComponent : components[index]? = some component) :
      pass.savedLengths[1 + index]? = some (componentLength component) := by
    rw [counted.saved, Nat.add_comm, List.map_cons, List.getElem?_cons_succ, List.getElem?_map,
      isComponent]
    rfl
  rcases lastAbsolute_split base components with same | ⟨before, absolute, more, rfl, same, isAbsolute⟩
  · rw [found] at same
    obtain ⟨rfl, rfl⟩ := Prod.mk.inj same
    have atBase : pass.baseArg = 0 := by
      have := counted.baseArg
      omega
    have taken : lengthOf pass 0 start = .ok (componentLength start) := by
      rw [lengthOf, counted.saved]
      rfl
    refine ⟨start.take (componentLength start), ?_, ?_⟩
    · rw [if_pos atBase, taken]
      rfl
    · exact copyComponents_copies rest 1 _ (by omega) canonical saved
  · rw [found] at same
    obtain ⟨rfl, rfl⟩ := Prod.mk.inj same
    have position : pass.baseArg = before.length + 1 := by
      have := counted.baseArg
      rw [List.length_append, List.length_cons] at this
      omega
    have startCanonical := canonical start (by simp)
    refine ⟨[], by rw [if_neg (by omega)], ?_⟩
    rw [copyComponents_skip before 1 (by omega), copyComponents_copies (start :: rest) _ _ (by omega)
      (fun other member => canonical other (List.mem_append_right _ member))]
    · rw [List.foldl_cons, appendComponent, if_neg counted.nonempty, copyComponent,
        componentLength_of_canonical startCanonical, List.take_length]
      simp
    · intro index component isComponent
      rw [Nat.add_assoc]
      apply saved
      rw [List.getElem?_append_right (Nat.le_add_right _ _), Nat.add_sub_cancel_left]
      exact isComponent

/-- What the second pass makes of the length of the first. -/
def joined (start : Bytes) (rest : List Bytes) (totalLen : Nat) : Except SvnError Bytes :=
  if start = [separator] ∧ totalLen = 1 then .ok [separator]
  else
    let path := rest.foldl appendComponent (start.take (componentLength start))
    if totalLen < path.length then .error SvnError.undefinedBehaviour
    else if path.length ≠ totalLen then .error SvnError.assertion
    else .ok path

/-- What both passes come to. -/
theorem pathJoinMany_eq (nonempty : base ≠ []) (components : List Bytes)
    (canonical : ∀ component ∈ components, Canonical component)
    (room : components.length < maxSavedLengths) (found : lastAbsolute base components = (start, rest)) :
    ∃ totalLen, totalLen + savedSeparator start rest =
        componentLength start + (rest.map addedLength).sum ∧
      pathJoinMany base components = joined start rest totalLen := by
  obtain ⟨first, pass, started, ran, counted⟩ := addLength_counted nonempty components canonical room
  rw [found] at counted
  obtain ⟨begun, isBegun, copied⟩ := counted.copies canonical found
  refine ⟨pass.totalLen, counted.total, ?_⟩
  rw [pathJoinMany, started, joined]
  show (components.foldlM addLength first >>= _) = _
  rw [ran]
  show (if pass.baseIsRoot = true ∧ pass.totalLen = 1 then _ else _) = _
  simp only [counted.root]
  by_cases alone : start = [separator] ∧ pass.totalLen = 1
  · rw [if_pos alone, if_pos alone]
    rfl
  · rw [if_neg alone, if_neg alone]
    by_cases atBase : pass.baseArg = 0
    · rw [if_pos atBase] at isBegun ⊢
      cases taken : lengthOf pass 0 base with
      | error code =>
          rw [taken] at isBegun
          cases isBegun
      | ok len =>
          rw [taken] at isBegun
          obtain rfl := Except.ok.inj isBegun
          show (copyComponents pass 1 (base.take len) components >>= _) = _
          rw [copied]
          rfl
    · rw [if_neg atBase] at isBegun ⊢
      obtain rfl := Except.ok.inj isBegun
      show (copyComponents pass 1 [] components >>= _) = _
      rw [copied]
      rfl

end Copies

section Folds

variable {base start path component : Bytes} {components rest : List Bytes}

theorem isRoot_of_getLast? (nonempty : path ≠ []) (other : path.getLast? ≠ some separator) :
    IsRoot path := by
  rcases List.eq_nil_or_concat path with empty | ⟨before, byte, rfl⟩
  · exact absurd empty nonempty
  · rw [List.concat_eq_append] at other ⊢
    exact ⟨before, byte, rfl, by simpa using other⟩

theorem IsRoot.getLast? (valid : IsRoot path) : path.getLast? ≠ some separator := by
  obtain ⟨before, byte, rfl, other⟩ := valid
  simpa using other

theorem IsRoot.ne_nil (valid : IsRoot path) : path ≠ [] := by
  obtain ⟨before, byte, rfl, -⟩ := valid
  simp

/-- The components that are not empty. -/
def named (components : List Bytes) : List Bytes := components.filter (· ≠ [])

theorem named_eq_nil : named rest = [] ↔ ∀ component ∈ rest, component = [] := by
  simp [named]

theorem named_isRoot (canonical : ∀ component ∈ rest, Canonical component)
    (relative : ∀ component ∈ rest, component.head? ≠ some separator) :
    ∀ component ∈ named rest, IsRoot component ∧ component.head? ≠ some separator := by
  intro component member
  obtain ⟨inside, nonempty⟩ := List.mem_filter.mp member
  refine ⟨?_, relative component inside⟩
  rcases canonical component inside with rfl | other
  · exact absurd rfl (relative _ inside)
  · exact isRoot_of_getLast? (by simpa using nonempty) other

theorem sum_addedLength (rest : List Bytes) :
    (rest.map addedLength).sum = (belowPath (named rest)).length := by
  induction rest with
  | nil => rfl
  | cons component rest ih =>
      rw [List.map_cons, List.sum_cons, ih, addedLength, named, named, List.filter_cons]
      by_cases empty : component = []
      · subst empty
        simp
      · rw [if_neg empty, if_pos (by simpa using empty), belowPath_cons]
        simp
        omega

theorem pathJoin_nil (path : Bytes) : pathJoin path [] = path := by
  rw [pathJoin]
  by_cases empty : path = []
  · rw [if_pos (.inl empty), empty]
  · simp [empty]

/-- An empty component changes neither result. -/
theorem foldl_named (join : Bytes → Bytes → Bytes) (ignored : ∀ path, join path [] = path)
    (rest : List Bytes) (path : Bytes) : rest.foldl join path = (named rest).foldl join path := by
  rw [named, List.foldl_filter]
  congr 1
  funext path component
  by_cases empty : component = []
  · simp [empty, ignored]
  · simp [empty]

theorem pathJoin_of_isRoot (root : IsRoot path) (nonempty : component ≠ [])
    (relative : component.head? ≠ some separator) :
    pathJoin path component = path ++ separator :: component := by
  rw [pathJoin, if_neg (by simp [root.ne_nil, relative]), if_neg nonempty, if_neg root.getLast?]

theorem appendComponent_of_isRoot (root : IsRoot path) (nonempty : component ≠ []) :
    appendComponent path component = path ++ separator :: component := by
  rw [appendComponent, if_neg nonempty, copyComponent, if_pos ⟨root.ne_nil, root.getLast?⟩]

/-- Behind a path without a trailing separator, each component comes with one. -/
theorem foldl_isRoot (join : Bytes → Bytes → Bytes) (components : List Bytes)
    (adds : ∀ path component, component ∈ components → IsRoot path →
      join path component = path ++ separator :: component)
    (roots : ∀ component ∈ components, IsRoot component) (root : IsRoot path) :
    components.foldl join path = path ++ belowPath components := by
  induction components generalizing path with
  | nil => simp [belowPath]
  | cons component components ih =>
      have next : IsRoot (path ++ separator :: component) := by
        rw [List.append_cons]
        exact (roots component List.mem_cons_self).append
      rw [List.foldl_cons, adds path component List.mem_cons_self root,
        ih (fun path other member => adds path other (.tail _ member))
          (fun other member => roots other (.tail _ member)) next, belowPath_cons]
      simp

theorem foldl_pathJoin (root : IsRoot path)
    (names : ∀ component ∈ components, IsRoot component ∧ component.head? ≠ some separator) :
    components.foldl pathJoin path = path ++ belowPath components :=
  foldl_isRoot pathJoin components
    (fun path component member isRoot =>
      pathJoin_of_isRoot isRoot (names component member).1.ne_nil (names component member).2)
    (fun component member => (names component member).1) root

theorem foldl_appendComponent (root : IsRoot path)
    (names : ∀ component ∈ components, IsRoot component ∧ component.head? ≠ some separator) :
    components.foldl appendComponent path = path ++ belowPath components :=
  foldl_isRoot appendComponent components
    (fun path component member isRoot =>
      appendComponent_of_isRoot isRoot (names component member).1.ne_nil)
    (fun component member => (names component member).1) root

/-- What comes before the last absolute component does not matter. -/
theorem foldl_lastAbsolute (base : Bytes) (components : List Bytes) :
    components.foldl pathJoin base =
      (lastAbsolute base components).2.foldl pathJoin (lastAbsolute base components).1 := by
  induction components using List.reverseRecOn with
  | nil => rfl
  | append_singleton components component ih =>
      rw [List.foldl_append, ih, lastAbsolute_concat]
      by_cases absolute : component.head? = some separator
      · rw [if_pos absolute]
        exact if_pos (.inr absolute)
      · rw [if_neg absolute, List.foldl_append]

end Folds

section Passes

variable {start : Bytes} {rest : List Bytes} {totalLen : Nat}

theorem joined_ok {path result : Bytes}
    (copied : rest.foldl appendComponent (start.take (componentLength start)) = path)
    (longer : ¬ (start = [separator] ∧ totalLen = 1)) :
    joined start rest totalLen = .ok result ↔ path.length = totalLen ∧ path = result := by
  rw [joined, if_neg longer, copied]
  dsimp only
  split
  · simp
    omega
  · split
    · simp
      omega
    · simp
      omega

/-- Behind a path without a trailing separator. -/
theorem joined_root (root : IsRoot start)
    (names : ∀ component ∈ named rest, IsRoot component ∧ component.head? ≠ some separator)
    (total : totalLen + savedSeparator start rest = componentLength start + (rest.map addedLength).sum) :
    joined start rest totalLen = .ok (rest.foldl pathJoin start) := by
  have other : start ≠ [separator] := by
    rintro rfl
    exact root.getLast? rfl
  have whole : componentLength start = start.length := componentLength_of_canonical (.inr root.getLast?)
  have copied : rest.foldl appendComponent (start.take (componentLength start)) =
      start ++ belowPath (named rest) := by
    rw [whole, List.take_length, foldl_named appendComponent fun path => if_pos rfl,
      foldl_appendComponent root names]
  rw [joined_ok copied fun alone => other alone.1, foldl_named pathJoin pathJoin_nil,
    foldl_pathJoin root names]
  refine ⟨?_, rfl⟩
  rw [savedSeparator, if_neg fun saved => other saved.1, whole, sum_addedLength] at total
  rw [List.length_append]
  omega

/-- Behind the root. -/
theorem joined_separator
    (names : ∀ component ∈ named rest, IsRoot component ∧ component.head? ≠ some separator)
    (total : totalLen + savedSeparator [separator] rest = 1 + (rest.map addedLength).sum) :
    joined [separator] rest totalLen = .ok (rest.foldl pathJoin [separator]) ↔
      (rest.head? = some [] → ∀ component ∈ rest, component = []) := by
  rw [sum_addedLength] at total
  have ignored := foldl_named pathJoin pathJoin_nil rest [separator]
  have copies := foldl_named appendComponent (fun path => if_pos rfl) rest [separator]
  rw [← named_eq_nil]
  cases found : named rest with
  | nil =>
      have none : savedSeparator [separator] rest = 0 := by
        rw [savedSeparator, if_neg]
        rintro ⟨-, component, isHead, nonempty⟩
        exact nonempty (named_eq_nil.mp found component (List.mem_of_mem_head? isHead))
      rw [found] at ignored total
      rw [none] at total
      have one : totalLen = 1 := total
      rw [joined, if_pos ⟨rfl, one⟩, ignored]
      simp
  | cons component more =>
      have first := names component (by simp [found])
      have next : IsRoot (separator :: component) := by
        rw [← List.singleton_append]
        exact first.1.append
      have long := List.length_pos_iff.mpr first.1.ne_nil
      have others : ∀ other ∈ more, IsRoot other ∧ other.head? ≠ some separator := fun other member =>
        names other (by simp [found, member])
      have joins : rest.foldl pathJoin [separator] = separator :: component ++ belowPath more := by
        have joinFirst : pathJoin [separator] component = separator :: component := by
          rw [pathJoin, if_neg (by simp [first.2]), if_neg first.1.ne_nil]
          rfl
        rw [ignored, found, List.foldl_cons, joinFirst,
          foldl_pathJoin next others]
      have copied : rest.foldl appendComponent [separator] = separator :: component ++ belowPath more := by
        have copyFirst : appendComponent [separator] component = separator :: component := by
          rw [appendComponent, if_neg first.1.ne_nil, copyComponent, if_neg (by simp)]
          rfl
        rw [copies, found, List.foldl_cons, copyFirst,
          foldl_appendComponent next others]
      have saved : savedSeparator [separator] rest = if rest.head? = some [] then 0 else 1 := by
        cases rest with
        | nil => exact absurd found (by simp [named])
        | cons head rest =>
            by_cases empty : head = []
            · simp [savedSeparator, empty]
            · simp [savedSeparator, empty]
      rw [found, saved, belowPath_cons, List.length_cons, List.length_append] at total
      have copiedStart : rest.foldl appendComponent
          ([separator].take (componentLength [separator])) = separator :: component ++ belowPath more :=
        copied
      rw [joins, joined_ok copiedStart]
      · rw [List.length_append, List.length_cons]
        by_cases empty : rest.head? = some []
        · rw [if_pos empty] at total
          simp only [empty, true_imp_iff, reduceCtorEq, iff_false]
          omega
        · rw [if_neg empty] at total
          simp only [empty, false_imp_iff, iff_true, and_true]
          omega
      · split at total <;> omega

/-- Behind a longer path with a trailing separator. -/
theorem joined_trailing {before : Bytes} (nonempty : before ≠ [])
    (names : ∀ component ∈ named rest, IsRoot component ∧ component.head? ≠ some separator)
    (total : totalLen = before.length + (rest.map addedLength).sum) :
    joined (before ++ [separator]) rest totalLen = .ok (rest.foldl pathJoin (before ++ [separator])) ↔
      before.getLast? ≠ some separator ∧ ∃ component ∈ rest, component ≠ [] := by
  have long := List.length_pos_iff.mpr nonempty
  have counted : componentLength (before ++ [separator]) = before.length := by
    rw [componentLength, if_pos ⟨by simp; omega, by simp⟩]
    simp
  have ignored := foldl_named pathJoin pathJoin_nil rest (before ++ [separator])
  have copies := foldl_named appendComponent (fun path => if_pos rfl) rest before
  have single : ¬ (before ++ [separator] = [separator] ∧ totalLen = 1) := by
    simp [nonempty]
  have some_named : (∃ component ∈ rest, component ≠ []) ↔ named rest ≠ [] := by
    rw [ne_eq, named_eq_nil]
    simp
  rw [some_named]
  rw [sum_addedLength] at total
  rw [joined_ok (by rw [counted, List.take_left]) single]
  cases found : named rest with
  | nil =>
      rw [copies, ignored, found]
      simp
  | cons component more =>
      have first := names component (by simp [found])
      have others : ∀ other ∈ more, IsRoot other ∧ other.head? ≠ some separator := fun other member =>
        names other (by simp [found, member])
      by_cases doubled : before.getLast? = some separator
      · have next : IsRoot (before ++ component) := first.1.append
        have copyFirst : appendComponent before component = before ++ component := by
          rw [appendComponent, if_neg first.1.ne_nil, copyComponent, if_neg (by simp [doubled])]
        rw [copies, found, List.foldl_cons, copyFirst,
          foldl_appendComponent next others]
        rw [found, belowPath_cons, List.length_cons, List.length_append] at total
        rw [List.length_append, List.length_append]
        simp only [doubled, ne_eq, not_true_eq_false, false_and, iff_false]
        omega
      · have root : IsRoot before := isRoot_of_getLast? nonempty doubled
        have joinFirst : pathJoin (before ++ [separator]) component = before ++ separator :: component := by
          rw [pathJoin, if_neg (by simp [first.2]), if_neg first.1.ne_nil, if_pos (by simp),
            List.dropLast_concat]
        have next : IsRoot (before ++ separator :: component) := by
          rw [List.append_cons]
          exact first.1.append
        rw [copies, foldl_appendComponent root names, ignored, found, List.foldl_cons, joinFirst,
          foldl_pathJoin next others, belowPath_cons]
        rw [found, belowPath_cons] at total
        simp only [ne_eq, doubled, not_false_eq_true, reduceCtorEq, and_self, iff_true]
        simp
        simp at total
        omega

/-- The two passes join as one join after another does, up to nine components behind a base that is
not empty. -/
theorem pathJoinMany_eq_foldl_iff (base : Bytes) (components : List Bytes)
    (canonical : ∀ component ∈ components, Canonical component) :
    pathJoinMany base components = .ok (components.foldl pathJoin base) ↔
      base ≠ [] ∧ components.length < maxSavedLengths ∧
        JoinsAlike (lastAbsolute base components).1 (lastAbsolute base components).2 := by
  by_cases empty : base = []
  · subst empty
    simp [pathJoinMany, startLengths, bind, Except.bind]
  by_cases room : components.length < maxSavedLengths
  swap
  · obtain ⟨first, started, -⟩ := startLengths_counted empty
    rw [pathJoinMany, started]
    show (components.foldlM addLength first >>= _) = _ ↔ _
    rw [addLength_full empty components canonical (Nat.le_of_not_lt room) started]
    simp [room, bind, Except.bind]
  cases found : lastAbsolute base components with
  | mk start rest =>
  obtain ⟨totalLen, total, comes⟩ := pathJoinMany_eq empty components canonical room found
  have nonempty : start ≠ [] := by
    rcases lastAbsolute_split base components with same | ⟨before, absolute, more, rfl, same, isAbsolute⟩
    · rw [found] at same
      rw [(Prod.mk.inj same).1]
      exact empty
    · rw [found] at same
      rw [(Prod.mk.inj same).1]
      rintro rfl
      cases isAbsolute
  have names : ∀ component ∈ named rest, IsRoot component ∧ component.head? ≠ some separator := by
    apply named_isRoot
    · intro component member
      rcases lastAbsolute_split base components with same | ⟨before, absolute, more, rfl, same, -⟩
      · rw [found] at same
        exact canonical component ((Prod.mk.inj same).2 ▸ member)
      · rw [found] at same
        rw [(Prod.mk.inj same).2] at member
        exact canonical component (by simp [member])
    · have relative := lastAbsolute_relative base components
      rw [found] at relative
      exact relative
  have folds : components.foldl pathJoin base = rest.foldl pathJoin start := by
    rw [foldl_lastAbsolute, found]
  rw [comes, folds]
  dsimp only
  simp only [empty, room, ne_eq, not_false_eq_true, true_and]
  rw [JoinsAlike]
  by_cases isLast : start.getLast? = some separator
  · by_cases isRoot : start = [separator]
    · rw [if_pos isRoot]
      subst isRoot
      exact joined_separator names total
    · rw [if_neg isRoot]
      rcases List.eq_nil_or_concat start with absent | ⟨before, byte, rfl⟩
      · exact absurd absent nonempty
      · rw [List.concat_eq_append] at *
        obtain rfl : byte = separator := by simpa using isLast
        have longer : before ≠ [] := by
          rintro rfl
          exact isRoot rfl
        have long := List.length_pos_iff.mpr longer
        have counted : componentLength (before ++ [separator]) = before.length := by
          rw [componentLength, if_pos ⟨by simp; omega, by simp⟩]
          simp
        have none : savedSeparator (before ++ [separator]) rest = 0 := by
          simp [savedSeparator, longer]
        rw [none, Nat.add_zero, counted] at total
        rw [joined_trailing longer names total, List.dropLast_concat]
        simp
  · have other : start ≠ [separator] := by
      rintro rfl
      exact isLast rfl
    rw [if_neg other, joined_root (isRoot_of_getLast? nonempty isLast) names total]
    simp [isLast]

/-- A base and two components, of which the last is empty. -/
theorem pathJoinMany_file : pathJoinMany [97] [[98], []] = .ok [97, 47, 98] :=
  (pathJoinMany_eq_foldl_iff [97] [[98], []] (by decide)).mpr
    ⟨by decide, by decide, by simp [JoinsAlike, lastAbsolute, separator]⟩

/-- Behind the root and an empty component, a separator is counted that is not written. The tenth
component is saved behind the array, and the byte before an empty base is read. -/
theorem pathJoinMany_fails :
    ((∀ component ∈ [[], [120]], Canonical component) ∧ [[], [120]].foldl pathJoin [47] = [47, 120] ∧
      pathJoinMany [47] [[], [120]] = .error SvnError.assertion) ∧
    pathJoinMany [47] (List.replicate 10 [97]) = .error SvnError.undefinedBehaviour ∧
    pathJoinMany [] [[97]] = .error SvnError.undefinedBehaviour := by
  decide

end Passes

end Subversion.Subr
