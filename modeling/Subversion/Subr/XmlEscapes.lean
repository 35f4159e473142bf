/-
This file models the escaping of characters for XML and shows that it is undone.
-/

import Mathlib.Data.List.TakeWhile
import Subversion.Delta.Window

namespace Subversion.Subr.XmlEscapes

open Delta

/-- The characters `&`, `<`, `>`, `"` and `'` are quoted. -/
def plain (c : UInt8) : Bool := c ≠ 38 && c ≠ 60 && c ≠ 62 && c ≠ 34 && c ≠ 39

def amp : Bytes := [38, 97, 109, 112, 59]

def lt : Bytes := [38, 108, 116, 59]

def gt : Bytes := [38, 103, 116, 59]

def quot : Bytes := [38, 113, 117, 111, 116, 59]

def apos : Bytes := [38, 97, 112, 111, 115, 59]

def entities : List Bytes := [amp, lt, gt, quot, apos]

def entityOf (c : UInt8) : Bytes :=
  if c = 38 then amp
  else if c = 60 then lt
  else if c = 62 then gt
  else if c = 34 then quot
  else if c = 39 then apos
  else []

theorem dropWhile_length_lt {keeps : UInt8 → Bool} {data rest : Bytes} {c : UInt8}
    (found : data.dropWhile keeps = c :: rest) : rest.length < data.length := by
  have shorter : (data.dropWhile keeps).length ≤ data.length := (List.dropWhile_sublist _).length_le
  rw [found, List.length_cons] at shorter
  exact shorter

/-- The bytes up to the next character that needs to be quoted are appended at once. -/
def xmlEscapeFrom (outstr data : Bytes) : Bytes :=
  match found : data.dropWhile plain with
  | [] => outstr ++ data.takeWhile plain
  | c :: rest => xmlEscapeFrom (outstr ++ data.takeWhile plain ++ entityOf c) rest
termination_by data.length
decreasing_by exact dropWhile_length_lt found

/-- Without a buffer, one is made. -/
def xmlEscape (outstr : Option Bytes) (data : Bytes) : Bytes := xmlEscapeFrom (outstr.getD []) data

/-- The remaining length is looked at first. -/
def startsWith (data entity : Bytes) : Bool := entity.length ≤ data.length && data.take entity.length = entity

/-- What stands for the text at an ampersand, and the number of bytes that are read. -/
def unescaped (data : Bytes) : Bytes × Nat :=
  if startsWith data amp then ([38], 5)
  else if startsWith data lt then ([60], 4)
  else if startsWith data gt then ([62], 4)
  else if startsWith data quot then ([34], 6)
  else if startsWith data apos then ([39], 6)
  else ([], 1)

theorem unescaped_pos (data : Bytes) : 0 < (unescaped data).2 := by
  unfold unescaped
  split_ifs <;> decide

def noAmpersand (c : UInt8) : Bool := c ≠ 38

/-- An ampersand that starts no entity is left out. -/
def xmlUnescapeFrom (outstr data : Bytes) : Bytes :=
  match found : data.dropWhile noAmpersand with
  | [] => outstr ++ data.takeWhile noAmpersand
  | c :: rest => xmlUnescapeFrom (outstr ++ data.takeWhile noAmpersand ++ (unescaped (c :: rest)).1)
      ((c :: rest).drop (unescaped (c :: rest)).2)
termination_by data.length
decreasing_by
  have shorter := dropWhile_length_lt found
  have positive := unescaped_pos (c :: rest)
  rw [List.length_drop, List.length_cons]
  omega

def xmlUnescape (outstr : Option Bytes) (data : Bytes) : Bytes := xmlUnescapeFrom (outstr.getD []) data

section Escaping

variable {data rest : Bytes} {c : UInt8}

def escaped (c : UInt8) : Bytes := if plain c then [c] else entityOf c

theorem flatMap_plain (run : Bytes) (isPlain : ∀ c ∈ run, plain c = true) : run.flatMap escaped = run := by
  induction run with
  | nil => rfl
  | cons c run ih =>
      rw [List.forall_mem_cons] at isPlain
      rw [List.flatMap_cons, ih isPlain.2, escaped, if_pos isPlain.1, List.singleton_append]

/-- Every byte is escaped on its own. -/
theorem xmlEscapeFrom_eq (outstr data : Bytes) : xmlEscapeFrom outstr data = outstr ++ data.flatMap escaped := by
  have run : ∀ data : Bytes, (data.takeWhile plain).flatMap escaped = data.takeWhile plain :=
    fun data => flatMap_plain _ fun c member => List.mem_takeWhile_imp member
  induction outstr, data using xmlEscapeFrom.induct with
  | case1 outstr data ended =>
      have whole := List.takeWhile_append_dropWhile (p := plain) (l := data)
      rw [ended, List.append_nil] at whole
      rw [xmlEscapeFrom, ended]
      conv_rhs => rw [← whole, run]
  | case2 outstr data c rest found ih =>
      have whole := List.takeWhile_append_dropWhile (p := plain) (l := data)
      rw [found] at whole
      have special : plain c = false := by
        have head := List.head?_dropWhile_not plain data
        rw [found] at head
        simpa using head
      rw [xmlEscapeFrom, found]
      dsimp only
      rw [ih]
      conv_rhs => rw [← whole]
      rw [List.flatMap_append, run, List.flatMap_cons, escaped, special]
      simp only [Bool.false_eq_true, if_false, List.append_assoc]

theorem xmlUnescapeFrom_other (keep : noAmpersand c = true) (outstr rest : Bytes) :
    xmlUnescapeFrom outstr (c :: rest) = xmlUnescapeFrom (outstr ++ [c]) rest := by
  conv_lhs => rw [xmlUnescapeFrom]
  conv_rhs => rw [xmlUnescapeFrom]
  rw [List.takeWhile_cons_of_pos keep, List.dropWhile_cons_of_pos keep]
  simp only [List.append_assoc, List.cons_append, List.nil_append]

theorem xmlUnescapeFrom_ampersand (outstr rest : Bytes) :
    xmlUnescapeFrom outstr (38 :: rest) = xmlUnescapeFrom (outstr ++ (unescaped (38 :: rest)).1)
      ((38 :: rest).drop (unescaped (38 :: rest)).2) := by
  have stop : ¬ noAmpersand 38 = true := by decide
  rw [xmlUnescapeFrom, List.takeWhile_cons_of_neg stop, List.dropWhile_cons_of_neg stop, List.append_nil]

theorem eq_of_not_plain (special : plain c = false) : c = 38 ∨ c = 60 ∨ c = 62 ∨ c = 34 ∨ c = 39 := by
  simp only [plain, ne_eq, Bool.and_eq_false_iff, decide_eq_false_iff_not, not_not] at special
  tauto

/-- An entity is found whatever is behind it, also at the end of the text. -/
theorem unescaped_entityOf (special : plain c = false) (rest : Bytes) :
    unescaped (entityOf c ++ rest) = ([c], (entityOf c).length) := by
  obtain rfl | rfl | rfl | rfl | rfl := eq_of_not_plain special
  · simp [unescaped, entityOf, startsWith, amp]
  · simp [unescaped, entityOf, startsWith, amp, lt]
  · simp [unescaped, entityOf, startsWith, amp, lt, gt]
  · simp [unescaped, entityOf, startsWith, amp, lt, gt, quot]
  · simp [unescaped, entityOf, startsWith, amp, lt, gt, quot, apos]

theorem entityOf_split (special : plain c = false) :
    ∃ tail, entityOf c = 38 :: tail ∧ (38 : UInt8) ∉ tail ∧ entityOf c ∈ entities := by
  obtain rfl | rfl | rfl | rfl | rfl := eq_of_not_plain special
  all_goals exact ⟨_, rfl, by decide, by decide⟩

theorem xmlUnescapeFrom_entityOf (special : plain c = false) (outstr rest : Bytes) :
    xmlUnescapeFrom outstr (entityOf c ++ rest) = xmlUnescapeFrom (outstr ++ [c]) rest := by
  have found := unescaped_entityOf special rest
  obtain ⟨tail, split, _, _⟩ := entityOf_split special
  rw [split, List.cons_append] at found ⊢
  rw [xmlUnescapeFrom_ampersand, found]
  dsimp only
  rw [← List.cons_append, List.drop_left]

theorem xmlUnescapeFrom_escaped (data : Bytes) :
    ∀ outstr, xmlUnescapeFrom outstr (data.flatMap escaped) = outstr ++ data := by
  induction data with
  | nil =>
      intro outstr
      rw [List.flatMap_nil, xmlUnescapeFrom]
      rfl
  | cons c data ih =>
      intro outstr
      rw [List.flatMap_cons, escaped]
      by_cases isPlain : plain c = true
      · have keep : noAmpersand c = true := by
          simp only [plain, Bool.and_eq_true] at isPlain
          exact isPlain.1.1.1.1
        rw [if_pos isPlain, List.singleton_append, xmlUnescapeFrom_other keep, ih, List.append_assoc]
        rfl
      · rw [if_neg isPlain, xmlUnescapeFrom_entityOf (Bool.eq_false_iff.mpr isPlain), ih, List.append_assoc]
        rfl

/-- Every ampersand of the escaped text is the first character of an entity. -/
theorem entity_of_split (data : Bytes) : ∀ before, data.flatMap escaped = before ++ 38 :: rest →
    ∃ entity ∈ entities, entity <+: 38 :: rest := by
  induction data with
  | nil =>
      intro before split
      cases before <;> cases split
  | cons c data ih =>
      intro before split
      rw [List.flatMap_cons, List.append_eq_append_iff] at split
      obtain ⟨behind, rfl, later⟩ | ⟨inside, first, later⟩ := split
      · exact ih behind later
      · cases inside with
        | nil => exact ih [] later.symm
        | cons byte inside =>
            rw [List.cons_append, List.cons.injEq] at later
            obtain ⟨rfl, rfl⟩ := later
            rw [escaped] at first
            split at first
            case isTrue isPlain =>
              have same : c = 38 := by
                cases before with
                | nil => exact (List.cons.inj first).1
                | cons byte before =>
                    have length := congrArg List.length first
                    simp at length
              rw [same] at isPlain
              cases isPlain
            case isFalse special =>
              obtain ⟨tail, isEntity, single, member⟩ := entityOf_split (Bool.eq_false_iff.mpr special)
              rw [first] at isEntity member
              cases before with
              | nil => exact ⟨_, member, _, rfl⟩
              | cons byte before =>
                  obtain ⟨rfl, rfl⟩ := List.cons.inj isEntity
                  exact absurd (List.mem_append_right _ List.mem_cons_self) single

theorem mem_escaped {byte : UInt8} (member : byte ∈ escaped c) : byte = 38 ∨ plain byte = true := by
  rw [escaped] at member
  split at member
  case isTrue isPlain => exact .inr (List.mem_singleton.mp member ▸ isPlain)
  case isFalse special =>
    have all : ∀ entity ∈ entities, ∀ byte ∈ entity, byte = 38 ∨ plain byte = true := by
      decide +kernel
    obtain ⟨_, _, _, isEntity⟩ := entityOf_split (Bool.eq_false_iff.mpr special)
    exact all _ isEntity byte member

end Escaping

/-- The text has none of the characters that are quoted, but for the ampersands of its entities. -/
structure WellEscaped (text : Bytes) : Prop where
  quoted : ∀ c ∈ text, c ≠ 60 ∧ c ≠ 62 ∧ c ≠ 34 ∧ c ≠ 39
  ampersands : ∀ before rest, text = before ++ 38 :: rest → ∃ entity ∈ entities, entity <+: 38 :: rest

theorem xmlEscape_wellEscaped (data : Bytes) : WellEscaped (xmlEscape none data) where
  quoted := by
    intro c member
    rw [xmlEscape, xmlEscapeFrom_eq, Option.getD_none, List.nil_append, List.mem_flatMap] at member
    obtain ⟨source, _, member⟩ := member
    obtain rfl | isPlain := mem_escaped member
    · decide
    · simp only [plain, Bool.and_eq_true, decide_eq_true_eq, and_assoc] at isPlain
      exact isPlain.2
  ampersands := by
    intro before rest split
    rw [xmlEscape, xmlEscapeFrom_eq, Option.getD_none, List.nil_append] at split
    exact entity_of_split data before split

/-- What stands in the buffer before stays in front of the text. -/
theorem xmlUnescape_xmlEscape (outstr : Option Bytes) (data : Bytes) :
    xmlUnescape outstr (xmlEscape none data) = outstr.getD [] ++ data := by
  rw [xmlEscape, xmlEscapeFrom_eq, Option.getD_none, List.nil_append, xmlUnescape, xmlUnescapeFrom_escaped]

theorem xml_roundTrips (data : Bytes) :
    xmlUnescape none (xmlEscape none data) = data ∧ WellEscaped (xmlEscape none data) :=
  ⟨xmlUnescape_xmlEscape none data, xmlEscape_wellEscaped data⟩

end Subversion.Subr.XmlEscapes
