/-
This file models how the text of a time is read, with the lookups of its two names.
-/

import Mathlib.Data.List.TakeWhile
import Subversion.Subr.Numbers

namespace Subversion.Subr.Time

open Delta Fs

/-- A field that the scan has not reached was never written. -/
structure ExplodedTime where
  usec : Option Int32
  sec : Option Int32
  min : Option Int32
  hour : Option Int32
  mday : Option Int32
  mon : Nat
  year : Option Int32
  wday : Nat
  yday : Option Int32
  isdst : Option Int32
  gmtoff : Option Int32

/-- What comes from the libraries: the tables of names, the conversion of the digits of a number, and the
time of the fields. -/
structure Runtime where
  daySnames : List Bytes
  monthSnames : List Bytes
  toInt : Int → Int32
  implodeGmt : ExplodedTime → Int64

/-- The parts of a format. A number may have a width. -/
inductive Directive where
  | space
  | literal (c : UInt8)
  | word
  | number (width : Option Nat)
  deriving DecidableEq, Repr

inductive Field where
  | word (text : Bytes)
  | number (value : Int)
  deriving DecidableEq, Repr

def literals (text : String) : List Directive := text.toUTF8.toList.map .literal

/-- What the format has behind the two names. -/
def laterDirectives : List Directive :=
  List.flatten
    [[.space, .number none, .space, .number (some 2)], literals ":", [.number (some 2)], literals ":",
      [.number (some 2)], literals ".", [.number (some 6), .space], literals "(day", [.space, .number (some 3)],
      literals ",", [.space], literals "dst", [.space, .number none], literals ",", [.space],
      literals "gmt_off", [.space, .number (some 6)], literals ")"]

/-- The format `%s %d %s %d %02d:%02d:%02d.%06d (day %03d, dst %d, gmt_off %06d)`. -/
def timestampFormat : List Directive :=
  .word :: .space :: .number none :: .space :: .word :: laterDirectives

def skipSpace (text : Bytes) : Bytes := text.dropWhile (isSpace ·)

def isWordByte (c : UInt8) : Bool := ¬ isSpace c

def digitRun (width : Option Nat) (text : Bytes) : Bytes :=
  (width.elim text (text.take ·)).takeWhile fun c => isDigit c

/-- The digits behind the sign, and what is left of the text. -/
def scanDigits (width : Option Nat) (text : Bytes) : Option (Nat × Bytes) :=
  if digitRun width text = [] then none
  else some (digitsValue 0 (digitRun width text), text.drop (digitRun width text).length)

/-- The sign counts for the width. -/
def scanSigned (width : Option Nat) : Bytes → Option (Int × Bytes)
  | 45 :: text => (scanDigits (width.map (· - 1)) text).map fun found => (-(found.1 : Int), found.2)
  | 43 :: text => (scanDigits (width.map (· - 1)) text).map fun found => ((found.1 : Int), found.2)
  | text => (scanDigits width text).map fun found => ((found.1 : Int), found.2)

/-- The fields up to the first directive that fails. -/
def sscanf : List Directive → Bytes → List Field
  | [], _ => []
  | .space :: directives, text => sscanf directives (skipSpace text)
  | .literal c :: directives, text =>
      if text.head? = some c then sscanf directives (text.drop 1) else []
  | .word :: directives, text =>
      if skipSpace text = [] then []
      else .word ((skipSpace text).takeWhile isWordByte) ::
        sscanf directives ((skipSpace text).dropWhile isWordByte)
  | .number width :: directives, text =>
      match scanSigned width (skipSpace text) with
      | none => []
      | some found => .number found.1 :: sscanf directives found.2

def wordAt (fields : List Field) (index : Nat) : Option Bytes :=
  match fields[index]? with
  | some (.word text) => some text
  | _ => none

def numberAt (fields : List Field) (index : Nat) : Option Int :=
  match fields[index]? with
  | some (.number value) => some value
  | _ => none

/-- A buffer of four bytes, of which the last one read is the terminator. A buffer that was not written
has no contents. -/
def nameBuffer : Option Bytes → Except SvnError Bytes
  | none => .error SvnError.undefinedBehaviour
  | some name => if name.length < 4 then .ok name else .error SvnError.undefinedBehaviour

/-- The loop has no bound. What is behind the table is not a part of it. -/
def findMatchingString (str : Bytes) (i : Nat) : List Bytes → Except SvnError Nat
  | [] => .error SvnError.undefinedBehaviour
  | string :: strings => if str = string then .ok i else findMatchingString str (i + 1) strings

def scannedFields (data : Bytes) : List Field := sscanf timestampFormat (data.takeWhile (· ≠ 0))

def explodedTime (runtime : Runtime) (fields : List Field) (wday mon : Nat) : ExplodedTime where
  usec := (numberAt fields 7).map runtime.toInt
  sec := (numberAt fields 6).map runtime.toInt
  min := (numberAt fields 5).map runtime.toInt
  hour := (numberAt fields 4).map runtime.toInt
  mday := (numberAt fields 1).map runtime.toInt
  mon := mon
  year := (numberAt fields 3).map fun year => runtime.toInt year - 1900
  wday := wday
  yday := (numberAt fields 8).map fun yday => runtime.toInt yday - 1
  isdst := (numberAt fields 9).map runtime.toInt
  gmtoff := (numberAt fields 10).map runtime.toInt

def svnTimeFromNts (runtime : Runtime) (data : Bytes) : Except SvnError Int64 :=
  nameBuffer (wordAt (scannedFields data) 0) >>= fun wday =>
    nameBuffer (wordAt (scannedFields data) 2) >>= fun month =>
      findMatchingString wday 0 runtime.daySnames >>= fun tmWday =>
        findMatchingString month 0 runtime.monthSnames >>= fun tmMon =>
          .ok (runtime.implodeGmt (explodedTime runtime (scannedFields data) tmWday tmMon))

section Lookups

variable {str : Bytes} {strings : List Bytes} {i : Nat}

/-- The loop ends inside of the table where the name is in it. -/
theorem findMatchingString_found (str : Bytes) (strings : List Bytes) : ∀ i, str ∈ strings →
    ∃ index, findMatchingString str i strings = .ok (i + index) ∧ strings[index]? = some str := by
  induction strings with
  | nil => exact fun _ member => absurd member List.not_mem_nil
  | cons string strings ih =>
      intro i member
      rw [findMatchingString]
      by_cases same : str = string
      · subst same
        exact ⟨0, if_pos rfl, rfl⟩
      · have later := (List.mem_cons.mp member).resolve_left same
        obtain ⟨index, found, isName⟩ := ih (i + 1) later
        refine ⟨index + 1, ?_, isName⟩
        rw [if_neg same, found, Nat.add_right_comm, Nat.add_assoc]

theorem findMatchingString_missing (str : Bytes) (strings : List Bytes) : ∀ i, str ∉ strings →
    findMatchingString str i strings = .error SvnError.undefinedBehaviour := by
  induction strings with
  | nil => exact fun _ _ => rfl
  | cons string strings ih =>
      intro i absent
      rw [List.mem_cons, not_or] at absent
      rw [findMatchingString, if_neg absent.1, ih (i + 1) absent.2]

theorem findMatchingString_ok_iff :
    (∃ index, findMatchingString str i strings = .ok index) ↔ str ∈ strings := by
  constructor
  · rintro ⟨index, found⟩
    by_contra absent
    rw [findMatchingString_missing str strings i absent] at found
    cases found
  · intro member
    obtain ⟨index, found, _⟩ := findMatchingString_found str strings i member
    exact ⟨_, found⟩

theorem nameBuffer_eq_ok_iff {field : Option Bytes} {name : Bytes} :
    nameBuffer field = .ok name ↔ field = some name ∧ name.length < 4 := by
  cases field with
  | none => exact ⟨nofun, fun both => nomatch both.1⟩
  | some text =>
      rw [nameBuffer]
      split
      case isTrue short =>
        constructor
        · intro same
          cases same
          exact ⟨rfl, short⟩
        · rintro ⟨same, _⟩
          cases same
          rfl
      case isFalse long =>
        refine ⟨nofun, ?_⟩
        rintro ⟨same, short⟩
        cases same
        exact absurd short long

end Lookups

/-- The pieces of a text up to its second name, and what is behind it. -/
structure DateParts where
  lead : Bytes
  day : Bytes
  gap : Bytes
  sign : Bytes
  digits : Bytes
  middle : Bytes
  month : Bytes
  rest : Bytes

def DateParts.text (parts : DateParts) : Bytes :=
  parts.lead ++ (parts.day ++ (parts.gap ++ (parts.sign ++ (parts.digits ++ (parts.middle ++
    (parts.month ++ parts.rest))))))

def IsSign (sign : Bytes) : Prop := sign = [] ∨ sign = [43] ∨ sign = [45]

/-- A name comes up to the next whitespace, and the number between the names has at least one digit. -/
structure DateParts.Valid (parts : DateParts) : Prop where
  lead : ∀ c ∈ parts.lead, isSpace c
  day : parts.day ≠ [] ∧ ∀ c ∈ parts.day, ¬ isSpace c
  gap : parts.gap ≠ [] ∧ ∀ c ∈ parts.gap, isSpace c
  sign : IsSign parts.sign
  digits : parts.digits ≠ [] ∧ ∀ c ∈ parts.digits, isDigit c
  middle : ∀ c ∈ parts.middle, isSpace c
  month : parts.month ≠ [] ∧ ∀ c ∈ parts.month, ¬ isSpace c
  apart : parts.middle = [] → ∀ c, parts.month.head? = some c → ¬ isDigit c
  rest : ∀ c, parts.rest.head? = some c → isSpace c

section Scanning

variable {front back text : Bytes} {keeps : UInt8 → Bool}

theorem run_split (all : ∀ c ∈ front, keeps c = true) (stop : ∀ c, back.head? = some c → keeps c = false) :
    (front ++ back).takeWhile keeps = front ∧ (front ++ back).dropWhile keeps = back := by
  rw [List.takeWhile_append_of_pos all, List.dropWhile_append_of_pos all]
  cases back with
  | nil => exact ⟨List.append_nil _, rfl⟩
  | cons c back =>
      have ends := Bool.eq_false_iff.mp (stop c rfl)
      rw [List.takeWhile_cons_of_neg ends, List.dropWhile_cons_of_neg ends, List.append_nil]
      exact ⟨rfl, rfl⟩

theorem run_exists (keeps : UInt8 → Bool) (text : Bytes) :
    text = text.takeWhile keeps ++ text.dropWhile keeps ∧ (∀ c ∈ text.takeWhile keeps, keeps c = true) ∧
      ∀ c, (text.dropWhile keeps).head? = some c → keeps c = false := by
  refine ⟨List.takeWhile_append_dropWhile.symm, fun c member => List.mem_takeWhile_imp member, ?_⟩
  intro c isHead
  have stop := List.head?_dropWhile_not keeps text
  rw [isHead] at stop
  simpa using stop

theorem skipSpace_append (spaces : ∀ c ∈ front, isSpace c) (stop : ∀ c, back.head? = some c → ¬ isSpace c) :
    skipSpace (front ++ back) = back :=
  (run_split (fun c member => decide_eq_true (spaces c member))
    fun c isHead => decide_eq_false (stop c isHead)).2

theorem head_append (nonempty : front ≠ []) {p : UInt8 → Prop} (all : ∀ c ∈ front, p c) (back : Bytes) :
    ∀ c, (front ++ back).head? = some c → p c := by
  intro c isHead
  cases front with
  | nil => exact absurd rfl nonempty
  | cons first front =>
      cases isHead
      exact all c List.mem_cons_self

theorem scanDigits_run (nonempty : front ≠ []) (digits : ∀ c ∈ front, isDigit c)
    (stop : ∀ c, back.head? = some c → ¬ isDigit c) :
    scanDigits none (front ++ back) = some (digitsValue 0 front, back) := by
  have run : digitRun none (front ++ back) = front :=
    (run_split (fun c member => decide_eq_true (digits c member))
      fun c isHead => decide_eq_false (stop c isHead)).1
  rw [scanDigits, run, if_neg nonempty, List.drop_left]

theorem scanDigits_exists {found : Nat × Bytes} (isFound : scanDigits none text = some found) :
    ∃ digits, digits ≠ [] ∧ (∀ c ∈ digits, isDigit c) ∧ text = digits ++ found.2 ∧
      ∀ c, found.2.head? = some c → ¬ isDigit c := by
  obtain ⟨split, all, stop⟩ := run_exists (fun c => decide (isDigit c)) text
  have rest := congrArg (List.drop (digitRun none text).length) split
  rw [digitRun, Option.elim_none, List.drop_left] at rest
  rw [scanDigits] at isFound
  by_cases nonempty : digitRun none text = []
  · rw [if_pos nonempty] at isFound
    cases isFound
  · rw [if_neg nonempty] at isFound
    cases isFound
    refine ⟨digitRun none text, nonempty, fun c member => of_decide_eq_true (all c member), ?_, ?_⟩
    · show text = digitRun none text ++ text.drop (digitRun none text).length
      rw [digitRun, Option.elim_none, rest]
      exact split
    · show ∀ c, (text.drop (digitRun none text).length).head? = some c → _
      rw [digitRun, Option.elim_none, rest]
      exact fun c isHead => of_decide_eq_false (stop c isHead)

theorem scanSigned_run {sign : Bytes} (isSign : IsSign sign) (nonempty : front ≠ [])
    (digits : ∀ c ∈ front, isDigit c) (stop : ∀ c, back.head? = some c → ¬ isDigit c) :
    ∃ value, scanSigned none (sign ++ (front ++ back)) = some (value, back) := by
  have run := scanDigits_run nonempty digits stop
  obtain rfl | rfl | rfl := isSign
  · have isHead := head_append nonempty digits back
    rw [List.nil_append, scanSigned.eq_def]
    split
    case h_1 split => exact absurd (isHead 45 (by rw [split]; rfl)) (by decide)
    case h_2 split => exact absurd (isHead 43 (by rw [split]; rfl)) (by decide)
    case h_3 => exact ⟨_, by rw [run]; rfl⟩
  · exact ⟨_, by rw [List.singleton_append, scanSigned, Option.map_none, run]; rfl⟩
  · exact ⟨_, by rw [List.singleton_append, scanSigned, Option.map_none, run]; rfl⟩

theorem scanSigned_exists {found : Int × Bytes} (isFound : scanSigned none text = some found) :
    ∃ sign digits, IsSign sign ∧ digits ≠ [] ∧ (∀ c ∈ digits, isDigit c) ∧
      text = sign ++ (digits ++ found.2) ∧ ∀ c, found.2.head? = some c → ¬ isDigit c := by
  rw [scanSigned.eq_def] at isFound
  split at isFound
  case h_1 text =>
    obtain ⟨inner, isInner, rfl⟩ := Option.map_eq_some_iff.mp isFound
    obtain ⟨digits, nonempty, all, split, stop⟩ := scanDigits_exists isInner
    exact ⟨[45], digits, .inr (.inr rfl), nonempty, all, by rw [split]; rfl, stop⟩
  case h_2 text =>
    obtain ⟨inner, isInner, rfl⟩ := Option.map_eq_some_iff.mp isFound
    obtain ⟨digits, nonempty, all, split, stop⟩ := scanDigits_exists isInner
    exact ⟨[43], digits, .inr (.inl rfl), nonempty, all, by rw [split]; rfl, stop⟩
  case h_3 =>
    obtain ⟨inner, isInner, rfl⟩ := Option.map_eq_some_iff.mp isFound
    obtain ⟨digits, nonempty, all, split, stop⟩ := scanDigits_exists isInner
    exact ⟨[], digits, .inl rfl, nonempty, all, by rw [split]; rfl, stop⟩

theorem skipSpace_solid (stop : ∀ c, text.head? = some c → ¬ isSpace c) : skipSpace text = text :=
  skipSpace_append (List.forall_mem_nil _) stop

theorem skipSpace_exists (text : Bytes) :
    ∃ gap, text = gap ++ skipSpace text ∧ (∀ c ∈ gap, isSpace c) ∧
      ∀ c, (skipSpace text).head? = some c → ¬ isSpace c := by
  obtain ⟨split, all, stop⟩ := run_exists (fun c => decide (isSpace c)) text
  exact ⟨_, split, fun c member => of_decide_eq_true (all c member),
    fun c isHead => of_decide_eq_false (stop c isHead)⟩

theorem sscanf_word {directives : List Directive} (nonempty : front ≠ []) (solid : ∀ c ∈ front, ¬ isSpace c)
    (ends : ∀ c, back.head? = some c → isSpace c) (skipped : skipSpace text = front ++ back) :
    sscanf (.word :: directives) text = .word front :: sscanf directives back := by
  have run := @run_split _ _ isWordByte (fun c member => decide_eq_true (solid c member))
    fun c isHead => decide_eq_false (not_not.mpr (ends c isHead))
  have something : front ++ back ≠ [] := fun empty => nonempty (List.append_eq_nil_iff.mp empty).1
  rw [sscanf, skipped, if_neg something, run.1, run.2]

theorem sscanf_word_exists {directives : List Directive} {field : Field} {fields : List Field}
    (scanned : sscanf (.word :: directives) text = field :: fields) :
    ∃ lead word back, text = lead ++ (word ++ back) ∧ (∀ c ∈ lead, isSpace c) ∧ word ≠ [] ∧
      (∀ c ∈ word, ¬ isSpace c) ∧ (∀ c, back.head? = some c → isSpace c) ∧ field = .word word ∧
      fields = sscanf directives back := by
  obtain ⟨lead, outer, spaces, solid⟩ := skipSpace_exists text
  obtain ⟨inner, word, ends⟩ := run_exists isWordByte (skipSpace text)
  rw [sscanf] at scanned
  by_cases nothing : skipSpace text = []
  · rw [if_pos nothing] at scanned
    cases scanned
  · rw [if_neg nothing] at scanned
    cases scanned
    refine ⟨lead, (skipSpace text).takeWhile isWordByte, (skipSpace text).dropWhile isWordByte, ?_, spaces, ?_,
      fun c member => of_decide_eq_true (word c member),
      fun c isHead => not_not.mp (of_decide_eq_false (ends c isHead)), rfl, rfl⟩
    · rw [← inner]
      exact outer
    · intro empty
      rw [empty, List.nil_append] at inner
      obtain ⟨c, rest, split⟩ := List.exists_cons_of_ne_nil nothing
      have isEnd : isWordByte c = false := ends c (by rw [← inner, split]; rfl)
      exact solid c (by rw [split]; rfl) (not_not.mp (of_decide_eq_false isEnd))

theorem space_not_digit {c : UInt8} (space : isSpace c) : ¬ isDigit c := by
  rw [isDigit]
  obtain rfl | ⟨_, least⟩ := space
  · decide
  · omega

theorem sscanf_number {directives : List Directive} {sign : Bytes}
    (isSign : IsSign sign) (nonempty : front ≠ []) (digits : ∀ c ∈ front, isDigit c)
    (stop : ∀ c, back.head? = some c → ¬ isDigit c) (skipped : skipSpace text = sign ++ (front ++ back)) :
    ∃ value, sscanf (.number none :: directives) text = .number value :: sscanf directives back := by
  obtain ⟨value, scanned⟩ := scanSigned_run isSign nonempty digits stop
  refine ⟨value, ?_⟩
  rw [sscanf, skipped, scanned]

theorem sign_solid {sign : Bytes} (isSign : IsSign sign) (nonempty : front ≠ [])
    (digits : ∀ c ∈ front, isDigit c) (back : Bytes) :
    ∀ c, (sign ++ (front ++ back)).head? = some c → ¬ isSpace c := by
  intro c isHead space
  obtain rfl | rfl | rfl := isSign
  · exact space_not_digit space (head_append nonempty digits back c isHead)
  · cases isHead
    exact absurd space (by decide)
  · cases isHead
    exact absurd space (by decide)

theorem sscanf_date (parts : DateParts) (valid : parts.Valid) :
    ∃ value later, sscanf timestampFormat parts.text =
      .word parts.day :: .number value :: .word parts.month :: later := by
  have dayHead := head_append valid.day.1 valid.day.2
  have gapHead := head_append valid.gap.1 valid.gap.2
  have monthHead := head_append valid.month.1 valid.month.2 parts.rest
  have numberHead := sign_solid valid.sign valid.digits.1 valid.digits.2
    (parts.middle ++ (parts.month ++ parts.rest))
  have middleHead : ∀ c, (parts.middle ++ (parts.month ++ parts.rest)).head? = some c → ¬ isDigit c := by
    intro c isHead
    by_cases empty : parts.middle = []
    · rw [empty, List.nil_append, List.head?_append_of_ne_nil _ valid.month.1] at isHead
      exact valid.apart empty c isHead
    · exact space_not_digit (head_append empty valid.middle _ c isHead)
  obtain ⟨value, numberScanned⟩ := @sscanf_number _ _ _ (.space :: .word :: laterDirectives) _ valid.sign
    valid.digits.1 valid.digits.2 middleHead (skipSpace_solid numberHead)
  refine ⟨value, sscanf laterDirectives parts.rest, ?_⟩
  rw [timestampFormat, DateParts.text,
    sscanf_word valid.day.1 valid.day.2 (gapHead _) (skipSpace_append valid.lead (dayHead _)), sscanf,
    skipSpace_append valid.gap.2 numberHead, numberScanned, sscanf, skipSpace_append valid.middle monthHead,
    sscanf_word valid.month.1 valid.month.2 valid.rest (skipSpace_solid monthHead)]

theorem sscanf_number_exists {directives : List Directive} {field : Field} {fields : List Field}
    (scanned : sscanf (.number none :: directives) text = field :: fields) :
    ∃ sign digits back, IsSign sign ∧ digits ≠ [] ∧ (∀ c ∈ digits, isDigit c) ∧
      skipSpace text = sign ++ (digits ++ back) ∧ (∀ c, back.head? = some c → ¬ isDigit c) ∧
      fields = sscanf directives back := by
  rw [sscanf] at scanned
  split at scanned
  case h_1 => cases scanned
  case h_2 found isFound =>
    obtain ⟨sign, digits, isSign, nonempty, all, split, stop⟩ := scanSigned_exists isFound
    cases scanned
    exact ⟨sign, digits, found.2, isSign, nonempty, all, split, stop, rfl⟩

theorem wordAt_zero {fields : List Field} {name : Bytes} (isName : wordAt fields 0 = some name) :
    ∃ later, fields = .word name :: later := by
  cases fields with
  | nil => cases isName
  | cons field later =>
      cases field with
      | word text =>
          cases isName
          exact ⟨later, rfl⟩
      | number value => cases isName

theorem wordAt_succ {fields : List Field} {index : Nat} {name : Bytes}
    (isName : wordAt fields (index + 1) = some name) :
    ∃ field later, fields = field :: later ∧ wordAt later index = some name := by
  cases fields with
  | nil => cases isName
  | cons field later => exact ⟨field, later, rfl, isName⟩

/-- The two names of the scan come from a text of that shape only. -/
theorem sscanf_date_exists {day month : Bytes} (isDay : wordAt (sscanf timestampFormat text) 0 = some day)
    (isMonth : wordAt (sscanf timestampFormat text) 2 = some month) :
    ∃ parts : DateParts, parts.Valid ∧ text = parts.text ∧ parts.day = day ∧ parts.month = month := by
  rw [timestampFormat] at isDay isMonth
  obtain ⟨field, scanned⟩ := wordAt_zero isDay
  obtain ⟨lead, word, back, split, spaces, dayThere, daySolid, dayEnds, isWord, later⟩ :=
    sscanf_word_exists scanned
  obtain ⟨other, fields, cons, isMonth⟩ := wordAt_succ isMonth
  rw [scanned] at cons
  cases isWord
  cases cons
  obtain ⟨number, fields, cons, isMonth⟩ := wordAt_succ isMonth
  rw [cons, sscanf] at later
  obtain ⟨sign, digits, behind, isSign, someDigits, allDigits, isNumber, stop, later⟩ :=
    sscanf_number_exists later.symm
  obtain ⟨gap, outer, gapSpaces, gapEnds⟩ := skipSpace_exists back
  rw [skipSpace_solid gapEnds] at isNumber
  obtain ⟨middle, inner, middleSpaces, _⟩ := skipSpace_exists behind
  obtain ⟨rest, cons⟩ := wordAt_zero isMonth
  rw [cons, sscanf] at later
  obtain ⟨more, word, final, isMonthText, moreSpaces, monthThere, monthSolid, monthEnds, isWord, _⟩ :=
    sscanf_word_exists later.symm
  cases isWord
  rw [isMonthText, ← List.append_assoc] at inner
  rw [isNumber] at outer
  refine ⟨⟨lead, day, gap, sign, digits, middle ++ more, month, final⟩, ⟨spaces, ⟨dayThere, daySolid⟩,
    ⟨?_, ?_⟩, isSign, ⟨someDigits, allDigits⟩, ?_, ⟨monthThere, monthSolid⟩, ?_, monthEnds⟩, ?_, rfl, rfl⟩
  case refine_1 =>
    intro empty
    change gap = [] at empty
    rw [empty, List.nil_append] at outer
    have solid := sign_solid isSign someDigits allDigits behind
    rw [← outer] at solid
    obtain ⟨c, tail, isCons⟩ := List.exists_cons_of_ne_nil fun nothing : back = [] => someDigits
      (List.append_eq_nil_iff.mp (List.append_eq_nil_iff.mp (outer.symm.trans nothing)).2).1
    exact solid c (by rw [isCons]; rfl) (dayEnds c (by rw [isCons]; rfl))
  case refine_2 => exact gapSpaces
  case refine_3 =>
    intro c member
    exact (List.mem_append.mp member).elim (middleSpaces c) (moreSpaces c)
  case refine_4 =>
    intro empty c isHead
    change middle ++ more = [] at empty
    rw [empty, List.nil_append] at inner
    exact stop c (by rw [inner, List.head?_append_of_ne_nil _ monthThere]; exact isHead)
  case refine_5 =>
    rw [split, outer, inner]
    rfl

end Scanning

/-- Up to its end, the text begins with a day of the table, a number, and a month of the table, and both
names fit into their buffers. -/
def NamesFit (runtime : Runtime) (data : Bytes) : Prop :=
  ∃ parts : DateParts, parts.Valid ∧ data.takeWhile (· ≠ 0) = parts.text ∧
    (parts.day ∈ runtime.daySnames ∧ parts.day.length < 4) ∧
      (parts.month ∈ runtime.monthSnames ∧ parts.month.length < 4)

/-- The function comes to its end, and no access on the way leaves a buffer or a table. -/
def EndsInside (runtime : Runtime) (data : Bytes) : Prop := ∃ time, svnTimeFromNts runtime data = .ok time

/-- For every text and every two tables of names. -/
theorem svnTimeFromNts_inside_iff (runtime : Runtime) (data : Bytes) :
    EndsInside runtime data ↔ NamesFit runtime data := by
  constructor
  · rintro ⟨time, done⟩
    obtain ⟨wday, isWday, rest⟩ := bind_eq_ok done
    obtain ⟨month, isMonth, rest⟩ := bind_eq_ok rest
    obtain ⟨tmWday, dayFound, rest⟩ := bind_eq_ok rest
    obtain ⟨tmMon, monthFound, _⟩ := bind_eq_ok rest
    obtain ⟨isWday, wdayFits⟩ := nameBuffer_eq_ok_iff.mp isWday
    obtain ⟨isMonth, monthFits⟩ := nameBuffer_eq_ok_iff.mp isMonth
    obtain ⟨parts, valid, split, rfl, rfl⟩ := sscanf_date_exists isWday isMonth
    exact ⟨parts, valid, split, ⟨findMatchingString_ok_iff.mp ⟨_, dayFound⟩, wdayFits⟩,
      ⟨findMatchingString_ok_iff.mp ⟨_, monthFound⟩, monthFits⟩⟩
  · rintro ⟨parts, valid, split, ⟨isDay, dayFits⟩, ⟨isMonth, monthFits⟩⟩
    obtain ⟨value, later, scanned⟩ := sscanf_date parts valid
    have fields : scannedFields data = .word parts.day :: .number value :: .word parts.month :: later := by
      rw [scannedFields, split, scanned]
    have dayRead : nameBuffer (wordAt (scannedFields data) 0) = .ok parts.day :=
      nameBuffer_eq_ok_iff.mpr ⟨by rw [fields]; rfl, dayFits⟩
    have monthRead : nameBuffer (wordAt (scannedFields data) 2) = .ok parts.month :=
      nameBuffer_eq_ok_iff.mpr ⟨by rw [fields]; rfl, monthFits⟩
    obtain ⟨tmWday, dayFound⟩ := findMatchingString_ok_iff (i := 0) |>.mpr isDay
    obtain ⟨tmMon, monthFound⟩ := findMatchingString_ok_iff (i := 0) |>.mpr isMonth
    refine ⟨runtime.implodeGmt (explodedTime runtime (scannedFields data) tmWday tmMon), ?_⟩
    rw [svnTimeFromNts, dayRead, ok_bind, monthRead, ok_bind, dayFound, ok_bind, monthFound, ok_bind]

/-- The English names, each of three letters. -/
def aprRuntime : Runtime where
  daySnames := [[83, 117, 110], [77, 111, 110], [84, 117, 101], [87, 101, 100], [84, 104, 117], [70, 114, 105],
    [83, 97, 116]]
  monthSnames := [[74, 97, 110], [70, 101, 98], [77, 97, 114], [65, 112, 114], [77, 97, 121], [74, 117, 110],
    [74, 117, 108], [65, 117, 103], [83, 101, 112], [79, 99, 116], [78, 111, 118], [68, 101, 99]]
  toInt := Int32.ofInt
  implodeGmt := fun _ => 0

/-- The text `xyz 3 Oct`: there is no such day. -/
theorem svnTimeFromNts_unknownDay : ¬ EndsInside aprRuntime [120, 121, 122, 32, 51, 32, 79, 99, 116] := by
  have fields : scannedFields [120, 121, 122, 32, 51, 32, 79, 99, 116] =
      [.word [120, 121, 122], .number 3, .word [79, 99, 116]] := by decide +kernel
  rintro ⟨time, done⟩
  rw [svnTimeFromNts, fields] at done
  cases done

end Subversion.Subr.Time
