/-
This file models the substitution of a keyword in its buffer, where each store has an address.
-/

import Subversion.Lib.ByteMemory
import Subversion.Wc.Translate

namespace Subversion.Wc.KeywordBuffer

open Delta ByteMemory Translate

/-- The memory from the first byte of the buffer on, and the length of the text in it. -/
structure Buffer where
  memory : Nat → UInt8
  len : Nat

/-- Bytes that are stored from an offset on. -/
structure Block where
  offset : Nat
  bytes : Bytes
  deriving DecidableEq, Repr

structure Substitution where
  blocks : List Block
  len : Nat
  deriving DecidableEq, Repr

def Buffer.text (buf : Buffer) : Bytes := contents buf.memory 0 buf.len

/-- The first two stores turn `$` into `: `, and the limit does not know the length of the keyword. -/
def expand (keyword : CString) (value : Bytes) : Substitution :=
  let bufPtr := 1 + keyword.val.length
  if value = [] then
    ⟨[⟨bufPtr, [58]⟩, ⟨bufPtr + 1, [32]⟩, ⟨bufPtr + 2, [36]⟩], 4 + keyword.val.length⟩
  else
    let vallen := if keywordMaxLen - 5 < value.length then keywordMaxLen - 5 else value.length
    ⟨[⟨bufPtr, [58]⟩, ⟨bufPtr + 1, [32]⟩, ⟨bufPtr + 2, strncpy value vallen⟩,
      ⟨bufPtr + 2 + vallen, [32]⟩, ⟨bufPtr + 2 + vallen + 1, [36]⟩], 5 + keyword.val.length + vallen⟩

/-- The answer is `none` where the buffer does not hold the keyword. -/
def translateKeywordSubst (buf : Buffer) (keyword : CString) (value : Option Bytes) :
    Except SvnError (Option Substitution) :=
  let keywordLen := keyword.val.length
  let bufPtr := 1 + keywordLen
  if keywordMaxLen < buf.len then .error SvnError.assertion
  else if buf.memory 0 ≠ 36 then .error SvnError.assertion
  -- the byte in front of the buffer is read
  else if buf.len = 0 then .error SvnError.undefinedBehaviour
  else if buf.memory (buf.len - 1) ≠ 36 then .error SvnError.assertion
  else if buf.len < keywordLen + 2 then .ok none
  else if contents buf.memory 1 keywordLen ≠ keyword.val then .ok none
  else if buf.memory bufPtr = 36 then
    match value with
    | some value => .ok (some (expand keyword value))
    | none => .ok (some ⟨[], buf.len⟩)
  else if 4 + keywordLen ≤ buf.len ∧ buf.memory bufPtr = 58 ∧ buf.memory (bufPtr + 1) = 32 ∧
      buf.memory (buf.len - 2) = 32 then
    match value with
    | none => .ok (some ⟨[⟨bufPtr, [36]⟩], 2 + keywordLen⟩)
    | some value => .ok (some (expand keyword value))
  else .ok none

/-- The stores are made one after the other. -/
def Buffer.after (buf : Buffer) (substitution : Substitution) : Buffer where
  memory := substitution.blocks.foldl (fun memory block => store memory block.offset block.bytes) buf.memory
  len := substitution.len

def Expanded (keyword : CString) (text : Bytes) : Prop :=
  [36] ++ keyword.val ++ [58] <+: text ∧ [32, 36] <:+ text

/-- All stores are in the buffer, and an expansion has the form that its readers expect. -/
structure Kept (buf : Buffer) (keyword : CString) (value : Option Bytes)
    (substitution : Substitution) : Prop where
  inside : ∀ block ∈ substitution.blocks, block.offset + block.bytes.length ≤ keywordMaxLen
  short : substitution.len ≤ keywordMaxLen
  expanded : value.isSome → Expanded keyword (buf.after substitution).text

/-- What is left of the value has room in the buffer, next to the keyword. -/
def Fits (keyword : CString) : Option Bytes → Prop
  | none => True
  | some [] => 4 + keyword.val.length ≤ keywordMaxLen
  | some value => 5 + keyword.val.length + min value.length (keywordMaxLen - 5) ≤ keywordMaxLen

instance (keyword : CString) : (value : Option Bytes) → Decidable (Fits keyword value)
  | none => inferInstanceAs (Decidable True)
  | some [] => inferInstanceAs (Decidable (_ ≤ _))
  | some (_ :: _) => inferInstanceAs (Decidable (_ ≤ _))

section Stores

variable {buf : Buffer} {keyword : CString} {value : Option Bytes}

@[simp] theorem strncpy_length (text : Bytes) (len : Nat) : (strncpy text len).length = len := by
  have front : ((text.takeWhile (· ≠ 0)).take len).length ≤ len := List.length_take_le _ _
  rw [strncpy, List.length_append, List.length_replicate]
  omega

/-- The stores of an expansion follow one another. -/
theorem after_expand (buf : Buffer) (keyword : CString) (value : Bytes) :
    ∃ image, (buf.after (expand keyword value)).memory =
        store buf.memory (1 + keyword.val.length) ([58, 32] ++ image) ∧
      [36] ++ keyword.val ++ [58, 32] ++ image = expandedText keyword.val value ∧
      (expand keyword value).len = 1 + keyword.val.length + ([58, 32] ++ image).length := by
  by_cases empty : value = []
  · refine ⟨[36], ?_, ?_, ?_⟩
    · rw [Buffer.after, expand, if_pos empty]
      rfl
    · rw [expandedText, if_pos empty, List.append_assoc _ [58, 32]]
      rfl
    · rw [expand, if_pos empty]
      simp only [List.length_append, List.length_cons, List.length_nil]
      omega
  · have cut : (if keywordMaxLen - 5 < value.length then keywordMaxLen - 5 else value.length) =
        min value.length (keywordMaxLen - 5) := by
      split <;> omega
    refine ⟨strncpy value (min value.length (keywordMaxLen - 5)) ++ [32, 36], ?_, ?_, ?_⟩
    · rw [Buffer.after, expand, if_neg empty]
      simp only [cut, List.foldl_cons, List.foldl_nil]
      rw [show ([58, 32] : Bytes) = [58] ++ [32] from rfl, show ([32, 36] : Bytes) = [32] ++ [36] from rfl,
        store_append, store_append, store_append, store_append, List.length_append, strncpy_length]
      rfl
    · rw [expandedText, if_neg empty]
      simp only [List.append_assoc]
    · rw [expand, if_neg empty]
      simp only [cut, List.length_append, strncpy_length, List.length_cons, List.length_nil]
      omega

theorem contents_front (dollar : buf.memory 0 = 36)
    (named : contents buf.memory 1 keyword.val.length = keyword.val) :
    contents buf.memory 0 (1 + keyword.val.length) = [36] ++ keyword.val := by
  rw [contents_add, Nat.zero_add, named, contents, contents, dollar]

theorem text_expand (dollar : buf.memory 0 = 36)
    (named : contents buf.memory 1 keyword.val.length = keyword.val) (value : Bytes) :
    (buf.after (expand keyword value)).text = expandedText keyword.val value := by
  obtain ⟨image, memory, text, len⟩ := after_expand buf keyword value
  have length : (buf.after (expand keyword value)).len =
      1 + keyword.val.length + ([58, 32] ++ image).length := len
  have stored := contents_store_behind buf.memory 0 (1 + keyword.val.length) ([58, 32] ++ image)
  rw [Nat.zero_add, ← memory, ← length, contents_front dollar named] at stored
  rw [Buffer.text, stored, ← text]
  simp only [List.append_assoc]

theorem expandedText_expanded (keyword : CString) (value : Bytes) :
    Expanded keyword (expandedText keyword.val value) := by
  rw [expandedText]
  split
  · exact ⟨⟨[32, 36], by simp⟩, ⟨[36] ++ keyword.val ++ [58], by simp⟩⟩
  · exact ⟨⟨[32] ++ strncpy value (min value.length (keywordMaxLen - 5)) ++ [32, 36], by simp⟩,
      List.suffix_append _ _⟩

/-- The last store of an expansion ends where the new text ends. -/
theorem expand_inside_iff (keyword : CString) (value : Bytes) :
    (∀ block ∈ (expand keyword value).blocks, block.offset + block.bytes.length ≤ keywordMaxLen) ↔
      (expand keyword value).len ≤ keywordMaxLen := by
  by_cases empty : value = []
  · rw [expand, if_pos empty]
    simp only [List.forall_mem_cons, List.length_cons, List.length_nil]
    constructor
    · rintro ⟨_, _, last, _⟩
      omega
    · intro short
      exact ⟨by omega, by omega, by omega, fun _ none => nomatch none⟩
  · rw [expand, if_neg empty]
    simp only [List.forall_mem_cons, List.length_cons, List.length_nil, strncpy_length]
    constructor
    · rintro ⟨_, _, _, _, last, _⟩
      omega
    · intro short
      exact ⟨by omega, by omega, by omega, by omega, by omega, fun _ none => nomatch none⟩

theorem expand_short_iff (keyword : CString) (value : Bytes) :
    (expand keyword value).len ≤ keywordMaxLen ↔ Fits keyword (some value) := by
  cases value with
  | nil => rfl
  | cons byte rest =>
      have cut : (if keywordMaxLen - 5 < (byte :: rest).length then keywordMaxLen - 5
          else (byte :: rest).length) = min (byte :: rest).length (keywordMaxLen - 5) := by
        split <;> omega
      rw [expand, if_neg (List.cons_ne_nil _ _), Fits]
      · simp only [cut]
      · exact List.cons_ne_nil _ _

end Stores

section Results

variable {buf : Buffer} {keyword : CString} {value : Option Bytes} {substitution : Substitution}

/-- A keyword is found in a text that begins with it, and only the value decides what is stored. -/
theorem translateKeywordSubst_found
    (found : translateKeywordSubst buf keyword value = .ok (some substitution)) :
    buf.len ≤ keywordMaxLen ∧ buf.memory 0 = 36 ∧ keyword.val.length + 2 ≤ buf.len ∧
      contents buf.memory 1 keyword.val.length = keyword.val ∧
      ((∃ given, value = some given ∧ substitution = expand keyword given) ∨
        (value = none ∧ (substitution = ⟨[], buf.len⟩ ∨
          4 + keyword.val.length ≤ buf.len ∧
            substitution = ⟨[⟨1 + keyword.val.length, [36]⟩], 2 + keyword.val.length⟩))) := by
  unfold translateKeywordSubst at found
  simp only at found
  split_ifs at found with long first empty last short other closed filled
  · cases found
  · cases found
  · refine ⟨not_lt.mp long, not_not.mp first, not_lt.mp short, not_not.mp other, ?_⟩
    cases value with
    | none => exact .inr ⟨rfl, .inl (Option.some.inj (Except.ok.inj found)).symm⟩
    | some given => exact .inl ⟨given, rfl, (Option.some.inj (Except.ok.inj found)).symm⟩
  · refine ⟨not_lt.mp long, not_not.mp first, not_lt.mp short, not_not.mp other, ?_⟩
    cases value with
    | none => exact .inr ⟨rfl, .inr ⟨filled.1, (Option.some.inj (Except.ok.inj found)).symm⟩⟩
    | some given => exact .inl ⟨given, rfl, (Option.some.inj (Except.ok.inj found)).symm⟩
  · cases found

/-- The texts before and after a call are those of the translation of a file. -/
theorem translateKeywordSubst_text {result : Option Substitution}
    (done : translateKeywordSubst buf keyword value = .ok result) :
    result.map (fun substitution => (buf.after substitution).text) =
      Translate.translateKeywordSubst buf.text keyword.val value := by
  have length : buf.text.length = buf.len := contents_length buf.memory buf.len 0
  unfold translateKeywordSubst at done
  simp only at done
  split_ifs at done with long first empty last short other closed filled
  · cases done
    unfold Translate.translateKeywordSubst
    rw [if_pos (by rw [length]; exact short)]
    rfl
  all_goals
    have name : (buf.text.drop 1).take keyword.val.length = contents buf.memory 1 keyword.val.length := by
      rw [Buffer.text, contents_drop _ _ (by omega), contents_take _ _ (by omega)]
    have after : (buf.text.drop (1 + keyword.val.length)).head? =
        some (buf.memory (1 + keyword.val.length)) := by
      rw [Buffer.text, contents_drop _ _ (by omega), contents_head? _ _ (by omega), Nat.zero_add]
    unfold Translate.translateKeywordSubst
    rw [if_neg (by rw [length]; exact short), name]
  · cases done
    rw [if_pos other]
    rfl
  · rw [if_neg other, after, if_pos (by rw [closed])]
    cases value with
    | none =>
        cases done
        rfl
    | some given =>
        cases done
        exact congrArg some (text_expand (not_not.mp first) (not_not.mp other) given)
  · obtain ⟨room, colon, space, closing⟩ := filled
    have marks : (buf.text.drop (1 + keyword.val.length)).take 2 = [58, 32] := by
      rw [Buffer.text, contents_drop _ _ (by omega), contents_take _ _ (by omega), Nat.zero_add,
        contents, contents, contents, colon, space]
    have final : buf.text[buf.len - 2]? = some 32 := by
      rw [Buffer.text, contents_getElem? _ _ (by omega), Nat.zero_add, closing]
    rw [if_neg other, after, if_neg (fun same => closed (Option.some.inj same)), length,
      if_pos ⟨room, marks, final⟩]
    cases value with
    | none =>
        cases done
        have stored := contents_store_behind buf.memory 0 (1 + keyword.val.length) [36]
        rw [contents_front (not_not.mp first) (not_not.mp other), Nat.zero_add, List.length_singleton,
          Nat.add_right_comm] at stored
        exact congrArg some stored
    | some given =>
        cases done
        exact congrArg some (text_expand (not_not.mp first) (not_not.mp other) given)
  · cases done
    rw [if_neg other, after, if_neg (fun same => closed (Option.some.inj same)), length, if_neg]
    · rfl
    · rintro ⟨room, marks, final⟩
      rw [Buffer.text, contents_drop _ _ (by omega), contents_take _ _ (by omega), Nat.zero_add,
        contents, contents, contents] at marks
      rw [Buffer.text, contents_getElem? _ _ (by omega), Nat.zero_add] at final
      exact filled ⟨room, (List.cons.inj marks).1, (List.cons.inj (List.cons.inj marks).2).1,
        Option.some.inj final⟩

theorem translateKeywordSubst_kept_iff
    (found : translateKeywordSubst buf keyword value = .ok (some substitution)) :
    Kept buf keyword value substitution ↔ Fits keyword value := by
  obtain ⟨room, dollar, large, named, ⟨given, rfl, rfl⟩ | ⟨rfl, rest⟩⟩ := translateKeywordSubst_found found
  · rw [← expand_short_iff]
    constructor
    · exact fun kept => kept.short
    · intro short
      refine ⟨(expand_inside_iff keyword given).mpr short, short, fun _ => ?_⟩
      rw [text_expand dollar named]
      exact expandedText_expanded keyword given
  · refine iff_of_true ?_ trivial
    obtain rfl | ⟨filled, rfl⟩ := rest
    · exact ⟨nofun, room, nofun⟩
    · refine ⟨List.forall_mem_singleton.mpr ?_, ?_, nofun⟩
      · simp only [List.length_singleton]
        omega
      · simp only
        omega

/-- The buffer at the end of an unexpanded keyword. -/
def unexpandedUrl : Buffer where
  memory := fun place => (([36] ++ urlLong ++ [36])[place]?).getD 0
  len := 9

def urlKeyword : CString := ⟨urlLong, by decide +kernel⟩

/-- Seven bytes of a long address are stored behind the buffer. -/
theorem translateKeywordSubst_kept_long :
    ∃ (buf : Buffer) (keyword : CString) (value : Bytes) (substitution : Substitution),
      translateKeywordSubst buf keyword (some value) = .ok (some substitution) ∧
        ¬ Kept buf keyword (some value) substitution := by
  have found : translateKeywordSubst unexpandedUrl urlKeyword (some (List.replicate 250 97)) =
      .ok (some (expand urlKeyword (List.replicate 250 97))) := by
    decide +kernel
  refine ⟨_, _, _, _, found, fun kept => ?_⟩
  have short : (expand urlKeyword (List.replicate 250 97)).len ≤ keywordMaxLen := kept.short
  exact absurd short (by decide +kernel)

theorem translateKeywordSubst_kept_iff_short :
    Kept unexpandedUrl urlKeyword (some [47]) (expand urlKeyword [47]) ↔ Fits urlKeyword (some [47]) := by
  refine translateKeywordSubst_kept_iff ?_
  decide +kernel

end Results

end Subversion.Wc.KeywordBuffer
