/-
This file models the path functions on a buffer whose reads are checked, and compares a path with what
is left after a component was added and removed.
-/

import Subversion.Subr.PathJoin

namespace Subversion.Subr

open Delta

/-- The terminator can be read, and nothing else around the text. -/
def byteAt (text : Bytes) (index : Int) : Except SvnError UInt8 :=
  (if 0 ≤ index then (text ++ [0])[index.toNat]? else none).elim (.error SvnError.undefinedBehaviour) .ok

def svnPathCanonicalize (path : Bytes) : Except SvnError Bytes :=
  if 0 < path.length then
    byteAt path (path.length - 1) >>= fun byte =>
      if byte = separator then svnPathCanonicalize path.dropLast else .ok path
  else .ok path
termination_by path.length
decreasing_by
  rw [List.length_dropLast]
  omega

def addComponentInternal (path component : Bytes) : Except SvnError Bytes :=
  (if path.length = 1 then (byteAt path 0).map (· == separator) else .ok false) >>= fun root =>
    svnPathCanonicalize ((if path ≠ [] ∧ root = false then path ++ [separator] else path) ++ component)

def findCharBackwardFrom (text : Bytes) (char : UInt8) : Nat → Except SvnError (Option Nat)
  | 0 => .ok none
  | i + 1 => byteAt text i >>= fun byte =>
      if byte = char then .ok (some i) else findCharBackwardFrom text char i

/-- The index is an `int`, whatever the length. -/
def backwardCount (text : Bytes) : Nat := ((Int32.ofInt (text.length - 1)).toInt + 1).toNat

def svnStringbufFindCharBackward (text : Bytes) (char : UInt8) : Except SvnError Nat :=
  (findCharBackwardFrom text char (backwardCount text)).map (·.getD text.length)

/-- The number of bytes that go, and the text that is left. -/
def svnStringbufChopBackToChar (text : Bytes) (char : UInt8) : Except SvnError (Nat × Bytes) :=
  (svnStringbufFindCharBackward text char).map fun i =>
    if i < text.length then (text.length - i, text.take i) else (0, text)

/-- The byte in front of the new end is read, also where nothing is left. -/
def svnPathRemoveComponent (path : Bytes) : Except SvnError Bytes :=
  svnPathCanonicalize path >>= fun path =>
    svnStringbufChopBackToChar path separator >>= fun chopped =>
      if chopped.1 = 0 then .ok []
      else
        byteAt chopped.2 (chopped.2.length - 1) >>= fun byte =>
          .ok (if byte = separator then chopped.2.dropLast else chopped.2)

/-- The place behind the last separator. -/
def basenameStart (path : Bytes) : Nat → Except SvnError Nat
  | 0 => .ok 0
  | index + 1 => byteAt path index >>= fun byte =>
      if byte ≠ separator then basenameStart path index else .ok (index + 1)

/-- A path ends at its first null byte. -/
def svnPathBasename (path : Bytes) : Except SvnError Bytes :=
  if path.takeWhile (· ≠ 0) = [] then .ok []
  else
    svnPathCanonicalize (path.takeWhile (· ≠ 0)) >>= fun path =>
      if path = [] then .ok [separator] else (basenameStart path path.length).map path.drop

def svnPathSplit (path : Bytes) : Except SvnError (Bytes × Bytes) :=
  svnPathCanonicalize path >>= fun dirpath =>
    svnPathRemoveComponent dirpath >>= fun dirpath =>
      (svnPathBasename path).map fun basename => (dirpath, basename)

section Reads

variable {text path component : Bytes}

theorem byteAt_inside {index : Nat} (inside : index < text.length) :
    byteAt text index = .ok text[index] := by
  rw [byteAt, if_pos (Int.natCast_nonneg index), Int.toNat_natCast,
    List.getElem?_append_left inside, List.getElem?_eq_getElem inside]
  rfl

theorem byteAt_middle (before after : Bytes) (byte : UInt8) :
    byteAt (before ++ byte :: after) before.length = .ok byte := by
  rw [byteAt_inside (by simp only [List.length_append, List.length_cons]; omega)]
  simp

theorem byteAt_last (before : Bytes) (byte : UInt8) :
    byteAt (before ++ [byte]) ((before ++ [byte]).length - 1) = .ok byte := by
  have index : (((before ++ [byte]).length : Nat) : Int) - 1 = (before.length : Nat) := by
    rw [List.length_append, List.length_singleton]
    omega
  rw [index, byteAt_middle before [] byte]

/-- The removal of trailing separators never leaves the text. -/
theorem svnPathCanonicalize_eq (path : Bytes) : svnPathCanonicalize path = .ok (canonicalize path) := by
  induction path using List.reverseRecOn with
  | nil =>
      rw [svnPathCanonicalize, if_neg (by simp)]
      rfl
  | append_singleton before byte ih =>
      rw [svnPathCanonicalize, if_pos (by simp), byteAt_last]
      change (if byte = separator then _ else _) = _
      rw [canonicalize, List.reverse_append, List.reverse_singleton, List.singleton_append,
        List.dropWhile_cons]
      by_cases slash : byte = separator
      · rw [if_pos slash, if_pos (decide_eq_true slash), List.dropLast_concat, ih]
        rfl
      · rw [if_neg slash, if_neg (by rw [decide_eq_true_eq]; exact slash), List.reverse_cons,
          List.reverse_reverse]

theorem addComponentInternal_eq (path component : Bytes) :
    addComponentInternal path component = .ok (addComponent path component) := by
  have root : (if path.length = 1 then (byteAt path 0).map (· == separator) else .ok false) =
      .ok (decide (path = [separator])) := by
    split
    case isTrue single =>
      obtain ⟨byte, rfl⟩ := List.length_eq_one_iff.mp single
      have read : byteAt [byte] 0 = .ok byte := @byteAt_inside [byte] 0 (by simp)
      rw [read]
      simp [Except.map, Bool.beq_eq_decide_eq]
    case isFalse other =>
      rw [decide_eq_false]
      rintro rfl
      exact other rfl
  rw [addComponentInternal, root]
  change svnPathCanonicalize _ = _
  rw [svnPathCanonicalize_eq, addComponent]
  by_cases special : path = [] ∨ path = [separator]
  · rw [if_pos special, if_neg]
    rw [decide_eq_false_iff_not]
    tauto
  · rw [if_neg special, if_pos]
    rw [decide_eq_false_iff_not]
    tauto

theorem basenameStart_eq (front : Bytes) : ∀ back, ∃ start ≤ front.length,
    basenameStart (front ++ back) front.length = .ok start ∧
      front.drop start = (front.reverse.takeWhile (· ≠ separator)).reverse := by
  induction front using List.reverseRecOn with
  | nil => exact fun back => ⟨0, le_rfl, rfl, rfl⟩
  | append_singleton front byte ih =>
      intro back
      have read : byteAt (front ++ [byte] ++ back) front.length = .ok byte := by
        rw [List.append_assoc]
        exact byteAt_middle front back byte
      rw [List.length_append, List.length_singleton, basenameStart, read, List.reverse_append,
        List.reverse_singleton, List.singleton_append, List.takeWhile_cons]
      change ∃ start ≤ _, (if byte ≠ separator then _ else _) = _ ∧ _
      by_cases slash : byte = separator
      · refine ⟨front.length + 1, le_rfl, if_neg (not_not.mpr slash), ?_⟩
        rw [if_neg (by rw [decide_eq_true_eq, not_not]; exact slash), List.drop_of_length_le (by simp)]
        rfl
      · obtain ⟨start, inside, found, text⟩ := ih ([byte] ++ back)
        refine ⟨start, by omega, ?_, ?_⟩
        · rw [if_pos slash, List.append_assoc, found]
        · rw [if_pos (decide_eq_true slash), List.drop_append_of_le_length inside, text, List.reverse_cons]

theorem svnPathBasename_eq (plain : (0 : UInt8) ∉ path) : svnPathBasename path = .ok (basename path) := by
  have whole : path.takeWhile (· ≠ 0) = path := by
    rw [List.takeWhile_eq_self_iff]
    intro byte member
    rw [decide_eq_true_eq]
    rintro rfl
    exact plain member
  rw [svnPathBasename, whole, basename]
  split
  · rfl
  · rw [svnPathCanonicalize_eq]
    change (if canonicalize path = [] then _ else _) = _
    split
    · rfl
    · obtain ⟨start, _, found, text⟩ := basenameStart_eq (canonicalize path) []
      rw [List.append_nil] at found
      rw [found, ← text]
      rfl

end Reads

section Scans

variable {text before middle : Bytes} {char : UInt8}

theorem findCharBackwardFrom_some {index : Nat} (count : Nat) :
    findCharBackwardFrom text char count = .ok (some index) →
      index < count ∧ byteAt text index = .ok char := by
  induction count with
  | zero => exact nofun
  | succ count ih =>
      intro found
      obtain ⟨byte, read, rest⟩ := bind_eq_ok found
      split at rest
      case isTrue same =>
        cases rest
        exact ⟨Nat.lt_succ_self index, same ▸ read⟩
      case isFalse =>
        obtain ⟨below, stopped⟩ := ih rest
        exact ⟨Nat.lt_succ_of_lt below, stopped⟩

theorem findCharBackwardFrom_none (absent : char ∉ text) (count : Nat) :
    count ≤ text.length → findCharBackwardFrom text char count = .ok none := by
  induction count with
  | zero => exact fun _ => rfl
  | succ count ih =>
      intro inside
      rw [findCharBackwardFrom, byteAt_inside inside]
      change (if text[count] = char then _ else _) = _
      rw [if_neg, ih (by omega)]
      intro same
      exact absent (same ▸ List.getElem_mem inside)

/-- The last occurrence is found from behind it. -/
theorem findCharBackwardFrom_found (before : Bytes) (absent : char ∉ middle) : ∀ after,
    findCharBackwardFrom (before ++ char :: middle ++ after) char (before.length + 1 + middle.length) =
      .ok (some before.length) := by
  induction middle using List.reverseRecOn with
  | nil =>
      intro after
      have read : byteAt (before ++ [char] ++ after) before.length = .ok char := by
        rw [List.append_assoc]
        exact byteAt_middle before after char
      rw [List.length_nil, Nat.add_zero, findCharBackwardFrom, read]
      exact if_pos rfl
  | append_singleton middle byte ih =>
      intro after
      rw [List.mem_append, List.mem_singleton, not_or] at absent
      have text : before ++ char :: (middle ++ [byte]) ++ after =
          before ++ char :: middle ++ byte :: after := by
        simp only [List.append_assoc, List.cons_append, List.nil_append]
      have place : before.length + 1 + middle.length = (before ++ char :: middle).length := by
        rw [List.length_append, List.length_cons]
        omega
      rw [text, List.length_append, List.length_singleton, ← Nat.add_assoc, findCharBackwardFrom]
      rw [place, byteAt_middle, ← place]
      change (if byte = char then _ else _) = _
      rw [if_neg (Ne.symm absent.2)]
      exact ih absent.1 (byte :: after)

theorem toInt_ofInt_le (length : Nat) : (Int32.ofInt length).toInt ≤ length := by
  rw [Int32.toInt_ofInt, Int.bmod_def, show ((Int32.size : Nat) : Int) = 4294967296 from rfl]
  have positive : (0 : Int) ≤ length := Int.natCast_nonneg length
  split <;> omega

theorem backwardCount_le (text : Bytes) : backwardCount text ≤ text.length := by
  cases text with
  | nil => decide
  | cons byte rest =>
      have index : (((byte :: rest).length : Nat) : Int) - 1 = (rest.length : Nat) := by
        rw [List.length_cons]
        omega
      have below := toInt_ofInt_le rest.length
      rw [backwardCount, index, List.length_cons]
      omega

theorem svnStringbufChopBackToChar_some {index : Nat}
    (found : findCharBackwardFrom text char (backwardCount text) = .ok (some index)) :
    svnStringbufChopBackToChar text char = .ok (text.length - index, text.take index) := by
  have inside := (findCharBackwardFrom_some _ found).1
  have bound := backwardCount_le text
  rw [svnStringbufChopBackToChar, svnStringbufFindCharBackward, found]
  exact congrArg Except.ok (if_pos (by simp only [Option.getD_some]; omega))

theorem svnStringbufChopBackToChar_none
    (missing : findCharBackwardFrom text char (backwardCount text) = .ok none) :
    svnStringbufChopBackToChar text char = .ok (0, text) := by
  rw [svnStringbufChopBackToChar, svnStringbufFindCharBackward, missing]
  exact congrArg Except.ok (if_neg (Nat.lt_irrefl _))

/-- What is chopped ends in front of a found character. -/
theorem svnStringbufChopBackToChar_cases {chopped : Nat × Bytes}
    (done : svnStringbufChopBackToChar text char = .ok chopped) :
    chopped.1 = 0 ∨ ∃ index < backwardCount text, byteAt text index = .ok char ∧
      chopped.2 = text.take index := by
  cases scanned : findCharBackwardFrom text char (backwardCount text) with
  | error error =>
      rw [svnStringbufChopBackToChar, svnStringbufFindCharBackward, scanned] at done
      cases done
  | ok found =>
      cases found with
      | none =>
          rw [svnStringbufChopBackToChar_none scanned] at done
          cases done
          exact .inl rfl
      | some index =>
          rw [svnStringbufChopBackToChar_some scanned] at done
          cases done
          obtain ⟨below, read⟩ := findCharBackwardFrom_some _ scanned
          exact .inr ⟨index, below, read, rfl⟩

end Scans

section Inverse

variable {path component : Bytes}

/-- What was added can be removed, and split off. -/
def Inverse (path component : Bytes) : Prop :=
  ∃ joined, addComponentInternal path component = .ok joined ∧
    svnPathRemoveComponent joined = .ok path ∧ svnPathSplit joined = .ok (path, component)

/-- The root cannot be restored, and the index has to reach the separator. -/
def Reaches (path component : Bytes) : Prop :=
  path = [] ∨ (path ≠ [separator] ∧
    (path.length : Int) ≤ (Int32.ofInt (path.length + component.length)).toInt)

instance : Decidable (Reaches path component) := inferInstanceAs (Decidable (_ ∨ _ ∧ _))

theorem joined_index (path component : Bytes) :
    (((path ++ separator :: component).length : Nat) : Int) - 1 = path.length + component.length := by
  rw [List.length_append, List.length_cons]
  omega

/-- The separator in front of the last component is found if the index starts behind it. -/
theorem findCharBackwardFrom_component (name : separator ∉ component)
    (reached : (path.length : Int) ≤ (Int32.ofInt (path.length + component.length)).toInt) :
    findCharBackwardFrom (path ++ separator :: component) separator
      (backwardCount (path ++ separator :: component)) = .ok (some path.length) := by
  obtain ⟨count, total⟩ := Int.le.dest reached
  have bound := toInt_ofInt_le (path.length + component.length)
  rw [Int.natCast_add, ← total] at bound
  have start : backwardCount (path ++ separator :: component) =
      path.length + 1 + (component.take count).length := by
    rw [backwardCount, joined_index, ← total, List.length_take]
    omega
  have free : separator ∉ component.take count := fun member => name (List.mem_of_mem_take member)
  have found := findCharBackwardFrom_found path free (component.drop count)
  rw [List.append_assoc, List.cons_append, List.take_append_drop] at found
  rw [start, found]

theorem svnPathRemoveComponent_of_isRoot (root : IsRoot path) :
    svnPathRemoveComponent path = svnStringbufChopBackToChar path separator >>= fun chopped =>
      if chopped.1 = 0 then .ok []
      else
        byteAt chopped.2 (chopped.2.length - 1) >>= fun byte =>
          .ok (if byte = separator then chopped.2.dropLast else chopped.2) := by
  rw [svnPathRemoveComponent, svnPathCanonicalize_eq, canonicalize_of_isRoot root]
  rfl

theorem isRoot_joined (path : Bytes) (name : IsComponent component) :
    IsRoot (path ++ separator :: component) := by
  rw [List.append_cons]
  exact name.isRoot.append

theorem svnPathRemoveComponent_below (root : IsRoot path) (name : IsComponent component)
    (reached : (path.length : Int) ≤ (Int32.ofInt (path.length + component.length)).toInt) :
    svnPathRemoveComponent (path ++ separator :: component) = .ok path := by
  rw [svnPathRemoveComponent_of_isRoot (isRoot_joined path name),
    svnStringbufChopBackToChar_some (findCharBackwardFrom_component name.2 reached), List.take_left]
  change (if (path ++ separator :: component).length - path.length = 0 then _ else _) = _
  obtain ⟨before, byte, rfl, other⟩ := root
  rw [if_neg (by simp only [List.length_append, List.length_cons]; omega), byteAt_last]
  exact congrArg Except.ok (if_neg other)

theorem svnPathRemoveComponent_component (name : IsComponent component) :
    svnPathRemoveComponent component = .ok [] := by
  rw [svnPathRemoveComponent_of_isRoot name.isRoot, svnStringbufChopBackToChar_none
    (findCharBackwardFrom_none name.2 _ (backwardCount_le component))]
  rfl

/-- A path that is left ends in front of a separator that was found. -/
theorem svnPathRemoveComponent_cases {parent : Bytes} (root : IsRoot path)
    (done : svnPathRemoveComponent path = .ok parent) :
    parent = [] ∨ ∃ index < backwardCount path, byteAt path index = .ok separator ∧
      0 < index ∧ parent.length ≤ index := by
  rw [svnPathRemoveComponent_of_isRoot root] at done
  obtain ⟨chopped, scanned, rest⟩ := bind_eq_ok done
  obtain none | ⟨index, below, read, left⟩ := svnStringbufChopBackToChar_cases scanned
  · rw [if_pos none] at rest
    cases rest
    exact .inl rfl
  · split at rest
    · cases rest
      exact .inl rfl
    · refine .inr ⟨index, below, read, ?_⟩
      obtain ⟨byte, final, result⟩ := bind_eq_ok rest
      have size : chopped.2.length ≤ index := by
        rw [left]
        exact List.length_take_le _ _
      refine ⟨Nat.pos_of_ne_zero ?_, ?_⟩
      · rintro rfl
        rw [left, List.take_zero] at final
        cases final
      · cases result
        split
        · rw [List.length_dropLast]
          omega
        · exact size

/-- An index that starts in front of the separator does not give the path. -/
theorem svnPathRemoveComponent_short (nonempty : path ≠ []) (name : IsComponent component)
    (short : (Int32.ofInt (path.length + component.length)).toInt < path.length) :
    svnPathRemoveComponent (path ++ separator :: component) ≠ .ok path := by
  intro done
  obtain empty | ⟨index, below, _, _, shorter⟩ :=
    svnPathRemoveComponent_cases (isRoot_joined path name) done
  · exact nonempty empty
  · rw [backwardCount, joined_index] at below
    omega

/-- Below the root, nothing is left that could be read. -/
theorem svnPathRemoveComponent_root (name : IsComponent component) :
    svnPathRemoveComponent (separator :: component) ≠ .ok [separator] := by
  intro done
  obtain empty | ⟨index, below, read, positive, _⟩ :=
    svnPathRemoveComponent_cases (isRoot_joined [] name) done
  · cases empty
  · have bound := backwardCount_le ([] ++ separator :: component)
    have inside : index < (separator :: component).length := Nat.lt_of_lt_of_le below bound
    rw [List.nil_append, byteAt_inside inside] at read
    cases index with
    | zero => exact absurd positive (Nat.lt_irrefl 0)
    | succ index =>
        have member := List.getElem_mem (Nat.lt_of_succ_lt_succ inside)
        rw [List.getElem_cons_succ] at read
        rw [Except.ok.inj read] at member
        exact name.2 member

/-- A joined path is split where its last component was added. -/
theorem basename_joined (path : Bytes) (name : IsComponent component) :
    basename (path ++ separator :: component) = component := by
  have canonical := canonicalize_of_isRoot (isRoot_joined path name)
  have free : ∀ byte ∈ component.reverse, decide (byte ≠ separator) = true := by
    intro byte member
    rw [decide_eq_true_eq]
    rintro rfl
    exact name.2 (List.mem_reverse.mp member)
  rw [basename, if_neg (by simp), canonical, if_neg (by simp), List.reverse_append, List.reverse_cons,
    List.append_assoc, List.takeWhile_append_of_pos free]
  simp

theorem basename_component (name : IsComponent component) : basename component = component := by
  have canonical := canonicalize_of_isRoot name.isRoot
  have free : ∀ byte ∈ component.reverse, decide (byte ≠ separator) = true := by
    intro byte member
    rw [decide_eq_true_eq]
    rintro rfl
    exact name.2 (List.mem_reverse.mp member)
  rw [basename, if_neg name.1, canonical, if_neg name.1, List.takeWhile_eq_self_iff.mpr free,
    List.reverse_reverse]

theorem svnPathSplit_of_isRoot {parent : Bytes} (root : IsRoot path) (plain : (0 : UInt8) ∉ path)
    (removed : svnPathRemoveComponent path = .ok parent) :
    svnPathSplit path = .ok (parent, basename path) := by
  rw [svnPathSplit, svnPathCanonicalize_eq, canonicalize_of_isRoot root, svnPathBasename_eq plain]
  change svnPathRemoveComponent path >>= _ = _
  rw [removed]
  rfl

/-- Adding and removing are inverse away from the root. -/
theorem inverse_iff {path component : CString} (canonical : Canonical path.val)
    (name : IsComponent component.val) : Inverse path.val component.val ↔ Reaches path.val component.val := by
  have added := addComponentInternal_eq path.val component.val
  rw [addComponent_eq _ name] at added
  by_cases empty : path.val = []
  · rw [if_pos (.inl empty), empty, List.nil_append] at added
    have removed := svnPathRemoveComponent_component name
    refine iff_of_true ⟨component.val, ?_, ?_, ?_⟩ (.inl empty)
    · rw [empty, added]
    · rw [empty, removed]
    · rw [empty, svnPathSplit_of_isRoot name.isRoot component.property removed, basename_component name]
  · by_cases slash : path.val = [separator]
    · rw [if_pos (.inr slash), slash] at added
      refine iff_of_false ?_ ?_
      · rintro ⟨joined, joins, removed, _⟩
        rw [slash] at joins removed
        rw [added] at joins
        cases joins
        exact svnPathRemoveComponent_root name removed
      · rintro (none | ⟨other, _⟩)
        · exact empty none
        · exact other slash
    · have root : IsRoot path.val := isRoot_of_getLast? empty (canonical.resolve_left slash)
      have plain : (0 : UInt8) ∉ path.val ++ separator :: component.val := by
        rw [List.mem_append, List.mem_cons]
        rintro (inPath | none | inName)
        · exact path.property inPath
        · cases none
        · exact component.property inName
      rw [if_neg (not_or.mpr ⟨empty, slash⟩)] at added
      constructor
      · rintro ⟨joined, joins, removed, _⟩
        rw [added] at joins
        cases joins
        refine .inr ⟨slash, ?_⟩
        by_contra short
        exact svnPathRemoveComponent_short empty name (Int.not_le.mp short) removed
      · rintro (none | ⟨_, reached⟩)
        · exact absurd none empty
        · have removed := svnPathRemoveComponent_below root name reached
          refine ⟨_, added, removed, ?_⟩
          rw [svnPathSplit_of_isRoot (isRoot_joined _ name) plain removed, basename_joined _ name]

/-- Directly below the root, the byte in front of the buffer is read. -/
theorem inverse_root : ∃ path component : CString, Canonical path.val ∧ IsComponent component.val ∧
    ¬ Inverse path.val component.val := by
  refine ⟨⟨[separator], by decide⟩, ⟨[97], by decide⟩, .inl rfl, by decide, ?_⟩
  rintro ⟨joined, joins, removed, _⟩
  rw [addComponentInternal_eq] at joins
  cases joins
  exact svnPathRemoveComponent_root (by decide) removed

theorem inverse_iff_letters : Inverse [97] [98] ↔ Reaches [97] [98] := by
  have first : (0 : UInt8) ∉ [97] := by decide
  have second : (0 : UInt8) ∉ [98] := by decide
  have canonical : Canonical [97] := by decide
  have name : IsComponent [98] := by decide
  exact @inverse_iff ⟨[97], first⟩ ⟨[98], second⟩ canonical name

end Inverse

end Subversion.Subr
