/-
This file shows when the test for modified properties agrees with the property maps.
-/

import Subversion.Subr.HashDump
import Subversion.Wc.Props

namespace Subversion.Wc

open Delta Subr HashDump

/-- A property file is missing, or it has a content. -/
structure PropFile where
  path : Bytes
  content : Option Bytes

/-- Only the length of the file is looked at. -/
def emptyPropsP (file : PropFile) : Bool :=
  match file.content with
  | none => true
  | some content => content.length = 4

/-- A missing file is not definitely different. -/
def filesizesDifferentP (file₁ file₂ : PropFile) : Bool :=
  match file₁.content, file₂.content with
  | some content₁, some content₂ => content₁.length ≠ content₂.length
  | _, _ => false

/-- Without a time in the entry, the times are taken to be different. -/
def propTimesEqualP (entrytime wfileTime : Int64) : Bool := entrytime ≠ 0 && wfileTime = entrytime

/-- The hash is not touched if the file is missing. -/
def readPropFile (file : PropFile) : Except SvnError PropHash :=
  match file.content with
  | none => .ok ∅
  | some content =>
      match hashRead ∅ content with
      | .ok hash => .ok hash
      | .error .undefinedBehaviour => .error SvnError.undefinedBehaviour
      | .error _ => .error ⟨.apr, "load_prop_file:  can't parse `" ++ text file.path ++ "'"⟩

/-- The recorded time of the properties and the one of the working file are compared before the
contents. -/
def svnWcPropsModifiedP (entrytime wfileTime : Int64) (propFile propBaseFile : PropFile) :
    Except SvnError Bool :=
  if emptyPropsP propBaseFile = true then .ok (!emptyPropsP propFile)
  else if emptyPropsP propFile = true then .ok true
  else if filesizesDifferentP propFile propBaseFile = true then .ok true
  else if propTimesEqualP entrytime wfileTime = true then .ok false
  else do
    let localprops ← readPropFile propFile
    let baseprops ← readPropFile propBaseFile
    return !(getLocalPropchanges localprops baseprops).isEmpty

/-- Both hashes give every name the same value. -/
def SameProps (localprops baseprops : PropHash) : Prop :=
  ∀ name, localprops.lookup name = baseprops.lookup name

/-- A missing file counts as the dump of an empty hash. -/
def dumpSize (file : PropFile) : Nat := (file.content.getD endText).length

section Dumps

variable {text rest bytes line : Bytes}

theorem readLengthLine_ok {limit : Nat} (read : readLengthLine limit text = .ok (line, rest)) :
    text = line ++ 10 :: rest := by
  induction text generalizing limit line with
  | nil => cases limit <;> cases read
  | cons c text ih =>
      cases limit with
      | zero => cases read
      | succ limit =>
          rw [readLengthLine] at read
          by_cases newline : c = 10
          · rw [if_pos newline] at read
            obtain ⟨rfl, rfl⟩ := Prod.mk.inj (Except.ok.inj read)
            rw [newline]
            rfl
          · rw [if_neg newline] at read
            cases later : readLengthLine limit text with
            | error status =>
                rw [later] at read
                cases read
            | ok found =>
                rw [later] at read
                obtain ⟨rfl, rfl⟩ := Prod.mk.inj (Except.ok.inj read)
                rw [ih later]
                rfl

theorem readCounted_ok {len : Int} (read : readCounted len text = .ok (bytes, rest)) :
    text = bytes ++ 10 :: rest := by
  rw [readCounted] at read
  split at read
  · cases read
  · split at read
    · cases read
    · next c others dropped =>
        split at read
        · next newline =>
            obtain ⟨rfl, rfl⟩ := Prod.mk.inj (Except.ok.inj read)
            rw [← newline, ← dropped, List.take_append_drop]
        · cases read

/-- After a line with the length of a key there are two more lines at least. -/
theorem readEntry_length {entry : Bytes × Bytes × Bytes} (read : readEntry line text = .ok entry) :
    2 ≤ line.length ∧ 2 ≤ text.length := by
  rw [readEntry] at read
  cases isKey : readKey line text with
  | error status =>
      rw [isKey] at read
      cases read
  | ok found =>
      obtain ⟨key, after⟩ := found
      rw [isKey] at read
      dsimp only at read
      have whole : 2 ≤ line.length ∧ text = key ++ 10 :: after := by
        unfold readKey at isKey
        split at isKey
        · split at isKey
          · cases isKey
          · exact ⟨by simp, readCounted_ok isKey⟩
        · cases isKey
      cases isLine : readLengthLine keylineMaxLen after with
      | error status =>
          rw [isLine] at read
          cases read
      | ok next =>
          have split : after = next.1 ++ 10 :: next.2 := readLengthLine_ok isLine
          refine ⟨whole.1, ?_⟩
          rw [whole.2, split]
          simp
          omega

/-- A dump of four bytes has no entries. -/
theorem hashRead_four {hash : Hash} (four : text.length = 4) (read : hashRead ∅ text = .ok hash) :
    hash = ∅ := by
  rw [hashRead, hashReadFrom] at read
  cases isLine : readLengthLine keylineMaxLen text with
  | error status =>
      rw [isLine] at read
      dsimp only at read
      split at read
      · exact (Except.ok.inj read).symm
      · cases read
  | ok found =>
      obtain ⟨line, after⟩ := found
      have split := readLengthLine_ok isLine
      rw [isLine] at read
      dsimp only at read
      by_cases isEnd : line = [69, 78, 68]
      · rw [if_pos isEnd] at read
        exact (Except.ok.inj read).symm
      · rw [if_neg isEnd] at read
        cases isEntry : readEntry line after with
        | error status =>
            rw [isEntry] at read
            cases read
        | ok entry =>
            obtain ⟨lineLong, afterLong⟩ := readEntry_length isEntry
            rw [split, List.length_append, List.length_cons] at four
            omega

end Dumps

section Modified

variable {localprops baseprops : PropHash} {propFile propBaseFile : PropFile}

/-- There are no changes between hashes that give the same values. -/
theorem getLocalPropchanges_eq_nil :
    getLocalPropchanges localprops baseprops = [] ↔ SameProps localprops baseprops := by
  rw [getLocalPropchanges, List.append_eq_nil_iff, List.filterMap_eq_nil_iff, List.filterMap_eq_nil_iff]
  constructor
  · rintro ⟨kept, created⟩ name
    cases isBase : baseprops.lookup name with
    | some value =>
        have member := AList.mem_lookup_iff.mp isBase
        have unchanged := kept ⟨name, value⟩ member
        dsimp only at unchanged
        cases isLocal : localprops.lookup name with
        | none =>
            rw [isLocal] at unchanged
            cases unchanged
        | some mine =>
            rw [isLocal] at unchanged
            dsimp only at unchanged
            split at unchanged
            · next same => rw [same]
            · cases unchanged
    | none =>
        cases isLocal : localprops.lookup name with
        | none => rfl
        | some mine =>
            have old := created ⟨name, mine⟩ (AList.mem_lookup_iff.mp isLocal)
            dsimp only at old
            rw [isBase] at old
            cases old
  · intro same
    constructor
    · rintro ⟨name, value⟩ member
      have isBase : baseprops.lookup name = some value := AList.mem_lookup_iff.mpr member
      dsimp only
      rw [same name, isBase]
      simp
    · rintro ⟨name, value⟩ member
      have isLocal : localprops.lookup name = some value := AList.mem_lookup_iff.mpr member
      dsimp only
      rw [← same name, isLocal]

theorem readPropFile_ok {content : Bytes} (isContent : propFile.content = some content)
    (read : readPropFile propFile = .ok localprops) : hashRead ∅ content = .ok localprops := by
  rw [readPropFile, isContent] at read
  dsimp only at read
  split at read
  · next hash found =>
      rw [Except.ok.inj read] at found
      exact found
  · cases read
  · cases read

/-- A file that counts as empty has no properties. -/
theorem empty_of_emptyPropsP (read : readPropFile propFile = .ok localprops)
    (empty : emptyPropsP propFile = true) : localprops = ∅ ∧ dumpSize propFile = 4 := by
  cases content : propFile.content with
  | none =>
      rw [readPropFile, content] at read
      rw [dumpSize, content]
      exact ⟨(Except.ok.inj read).symm, rfl⟩
  | some text =>
      rw [emptyPropsP, content] at empty
      have four : text.length = 4 := by simpa using empty
      rw [dumpSize, content]
      exact ⟨hashRead_four four (readPropFile_ok content read), four⟩

theorem dumpSize_of_not_empty (nonempty : ¬ emptyPropsP propFile = true) : dumpSize propFile ≠ 4 ∧
    ∃ content, propFile.content = some content ∧ dumpSize propFile = content.length := by
  rw [emptyPropsP] at nonempty
  cases content : propFile.content with
  | none =>
      rw [content] at nonempty
      exact absurd rfl nonempty
  | some text =>
      rw [content] at nonempty
      rw [dumpSize, content]
      exact ⟨by simpa using nonempty, text, rfl, rfl⟩

theorem answers_iff {answer : Bool} {P : Prop} :
    (∃ modified, (Except.ok answer : Except SvnError Bool) = .ok modified ∧ (modified = true ↔ P)) ↔
      (answer = true ↔ P) := by
  constructor
  · rintro ⟨modified, same, right⟩
    rw [Except.ok.inj same]
    exact right
  · exact fun right => ⟨answer, rfl, right⟩

/-- The test agrees with the maps if equal maps stand in files of one size. -/
theorem propsModifiedP_iff (entrytime wfileTime : Int64) (propFile propBaseFile : PropFile)
    (localprops baseprops : PropHash) (isLocal : readPropFile propFile = .ok localprops)
    (isBase : readPropFile propBaseFile = .ok baseprops)
    (unmodified : propTimesEqualP entrytime wfileTime = true → SameProps localprops baseprops) :
    (∃ modified, svnWcPropsModifiedP entrytime wfileTime propFile propBaseFile = .ok modified ∧
      (modified = true ↔ ¬ SameProps localprops baseprops)) ↔
    (SameProps localprops baseprops → dumpSize propFile = dumpSize propBaseFile) := by
  rw [svnWcPropsModifiedP]
  by_cases baseEmpty : emptyPropsP propBaseFile = true
  · obtain ⟨rfl, baseSize⟩ := empty_of_emptyPropsP isBase baseEmpty
    rw [if_pos baseEmpty, answers_iff, baseSize]
    by_cases localEmpty : emptyPropsP propFile = true
    · obtain ⟨rfl, localSize⟩ := empty_of_emptyPropsP isLocal localEmpty
      have same : SameProps (∅ : PropHash) ∅ := fun _ => rfl
      simp [localEmpty, localSize, same]
    · obtain ⟨otherSize, -⟩ := dumpSize_of_not_empty localEmpty
      simp [localEmpty, otherSize]
  · obtain ⟨baseSize, baseContent, isBaseContent, baseLength⟩ := dumpSize_of_not_empty baseEmpty
    rw [if_neg baseEmpty]
    by_cases localEmpty : emptyPropsP propFile = true
    · obtain ⟨rfl, localSize⟩ := empty_of_emptyPropsP isLocal localEmpty
      rw [if_pos localEmpty, answers_iff, localSize]
      simp [Ne.symm baseSize]
    · obtain ⟨-, localContent, isLocalContent, localLength⟩ := dumpSize_of_not_empty localEmpty
      have sizes : filesizesDifferentP propFile propBaseFile = true ↔
          dumpSize propFile ≠ dumpSize propBaseFile := by
        rw [filesizesDifferentP, isLocalContent, isBaseContent, localLength, baseLength]
        simp
      rw [if_neg localEmpty]
      by_cases different : filesizesDifferentP propFile propBaseFile = true
      · rw [if_pos different, answers_iff]
        simp [sizes.mp different]
      · have equal : dumpSize propFile = dumpSize propBaseFile := not_not.mp (mt sizes.mpr different)
        rw [if_neg different]
        by_cases equalTimes : propTimesEqualP entrytime wfileTime = true
        · rw [if_pos equalTimes, answers_iff]
          simp [unmodified equalTimes, equal]
        · rw [if_neg equalTimes, isLocal, isBase]
          show (∃ modified, Except.ok (!(getLocalPropchanges localprops baseprops).isEmpty) = _ ∧ _) ↔ _
          rw [answers_iff, ← getLocalPropchanges_eq_nil]
          simp [equal]

/-- A working file without properties where there is no base file. -/
def emptyDump : PropFile := ⟨[112], some endText⟩

def missingPropFile : PropFile := ⟨[98], none⟩

/-- A dump without properties is like a missing file. -/
theorem propsModifiedP_emptyDump :
    ∃ modified, svnWcPropsModifiedP 0 0 emptyDump missingPropFile = .ok modified ∧
      (modified = true ↔ ¬ SameProps ∅ ∅) :=
  (propsModifiedP_iff 0 0 emptyDump missingPropFile ∅ ∅ rfl rfl fun _ _ => rfl).mpr fun _ => rfl

/-- A working file without content is taken to be modified where there is no base file. -/
theorem propsModifiedP_zeroLength :
    (readPropFile ⟨[112], some []⟩ = .ok ∅ ∧ readPropFile missingPropFile = .ok ∅ ∧ SameProps ∅ ∅) ∧
      svnWcPropsModifiedP 0 0 ⟨[112], some []⟩ missingPropFile = .ok true :=
  ⟨⟨rfl, rfl, fun _ => rfl⟩, rfl⟩

end Modified

end Subversion.Wc
