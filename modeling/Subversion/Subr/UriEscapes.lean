/-
This file models the escapes of a URI and shows when they give back the path.
-/

import Subversion.Lib.Filters
import Subversion.Subr.Numbers
import Subversion.Subr.Path

namespace Subversion.Subr

open Delta Filters Fs

/-- The marks `/:.-_!~'()@=+$,&*`. -/
def uriMarks : Bytes := [47, 58, 46, 45, 95, 33, 126, 39, 40, 41, 64, 61, 43, 36, 44, 38, 42]

def isAlphanumeric (c : UInt8) : Bool :=
  (65 ≤ c && c ≤ 90) || (97 ≤ c && c ≤ 122) || (48 ≤ c && c ≤ 57)

/-- The search also finds the null byte that ends the marks. -/
def charIsUriSafe (c : UInt8) : Bool := isAlphanumeric c || (uriMarks ++ [0]).contains c

def hexDigit (digit : Nat) : UInt8 := UInt8.ofNat (if digit < 10 then 48 + digit else 55 + digit)

/-- Each unit of fuel writes one digit. -/
def putHexDigits : Nat → Nat → Bytes
  | 0, _ => []
  | fuel + 1, value =>
      (if 0 < value / 16 then putHexDigits fuel (value / 16) else []) ++ [hexDigit (value % 16)]

/-- The conversion `%%%02X`. A negative character has eight digits. -/
def escapeText (c : UInt8) : Bytes :=
  let digits := putHexDigits 8 (signedByte c % 2 ^ 32).toNat
  37 :: (List.replicate (2 - digits.length) 48 ++ digits)

/-- The string grows by three bytes whatever was printed. An index that is no `int` gives the counter
no defined value. -/
def uriEncodeFrom (path : Bytes) : Bytes → Nat → Nat → Bytes → Except SvnError Bytes
  | [], i, copied, out => .ok (out ++ (path.drop copied).take (i - copied))
  | c :: rest, i, copied, out =>
      if charIsUriSafe c then uriEncodeFrom path rest (i + 1) copied out
      else if 2 ^ 31 ≤ i + 1 then .error SvnError.undefinedBehaviour
      else uriEncodeFrom path rest (i + 1) (i + 1)
        (out ++ (path.drop copied).take (i - copied) ++ (escapeText c).take 3)

def uriEncode (path : Bytes) : Except SvnError Bytes := uriEncodeFrom path path 0 0 []

def hexDigitValue (c : UInt8) : Option Nat :=
  if 48 ≤ c && c ≤ 57 then some (c.toNat - 48)
  else if 65 ≤ c && c ≤ 70 then some (c.toNat - 55)
  else if 97 ≤ c && c ≤ 102 then some (c.toNat - 87)
  else none

def hexDigitsValue (value : Nat) : Bytes → Nat
  | [] => value
  | c :: rest =>
      match hexDigitValue c with
      | some digit => hexDigitsValue (value * 16 + digit) rest
      | none => value

/-- Two characters are too few for a prefix `0x` with a digit. -/
def strtolHex (digitz : Bytes) : Int :=
  match digitz.dropWhile (isSpace ·) with
  | 45 :: digits => -(hexDigitsValue 0 digits : Int)
  | 43 :: digits => hexDigitsValue 0 digits
  | digits => hexDigitsValue 0 digits

def decodedByte (first second : UInt8) : UInt8 :=
  UInt8.ofNat ((strtolHex [first, second] % 256).toNat)

/-- The decoded bytes and the indexes that were read. The function gives the memory behind the path. -/
def uriDecodeFrom (behind : Nat → UInt8) : Bytes → Nat → Bool → Bytes × List Nat
  | [], _, _ => ([], [])
  | c :: rest, i, queryStart =>
      if c = 63 then
        let (out, reads) := uriDecodeFrom behind rest (i + 1) true
        (c :: out, i :: reads)
      else if c = 43 ∧ queryStart = true then
        let (out, reads) := uriDecodeFrom behind rest (i + 1) queryStart
        (32 :: out, i :: reads)
      else if c = 37 then
        match rest with
        | first :: second :: rest =>
            let (out, reads) := uriDecodeFrom behind rest (i + 3) queryStart
            (decodedByte first second :: out, i :: (i + 1) :: (i + 2) :: reads)
        | [first] => ([decodedByte first (behind 0)], [i, i + 1, i + 2])
        | [] => ([decodedByte (behind 0) (behind 1)], [i, i + 1, i + 2])
      else
        let (out, reads) := uriDecodeFrom behind rest (i + 1) queryStart
        (c :: out, i :: reads)

def uriDecode (path : Bytes) (behind : Nat → UInt8) : Bytes × List Nat :=
  uriDecodeFrom behind path 0 false

/-- A character that a URI may hold as it is. -/
def UriSafe (c : UInt8) : Prop := isAlphanumeric c = true ∨ c ∈ uriMarks

instance (c : UInt8) : Decidable (UriSafe c) := inferInstanceAs (Decidable (_ ∨ _))

/-- Nothing but safe characters, and escapes with two hex digits. -/
def IsEscaped : Bytes → Prop
  | [] => True
  | 37 :: first :: second :: rest =>
      (hexDigitValue first).isSome ∧ (hexDigitValue second).isSome ∧ IsEscaped rest
  | c :: rest => UriSafe c ∧ IsEscaped rest

/-- The last escape lacks a digit. -/
def CutEscape : Bytes → Prop
  | [] => False
  | 37 :: _ :: _ :: rest => CutEscape rest
  | 37 :: _ => True
  | _ :: rest => CutEscape rest

section Characters

/-- What the encoder writes for one character. -/
def escaped (c : UInt8) : Bytes := if charIsUriSafe c then [c] else (escapeText c).take 3

/-- What the decoder makes of it. -/
def unescaped (c : UInt8) : UInt8 := if charIsUriSafe c ∨ c.toNat < 128 then c else 255

/-- An escape has two hex digits, but those of a negative character are the first of eight. -/
theorem escaped_unsafe : ∀ c : UInt8, charIsUriSafe c = false →
    ∃ first second, escaped c = [37, first, second] ∧ (hexDigitValue first).isSome ∧
      (hexDigitValue second).isSome ∧ decodedByte first second = unescaped c := by
  have digits : ∀ c : UInt8, charIsUriSafe c = false →
      escaped c = [37, (escaped c).getD 1 0, (escaped c).getD 2 0] ∧
      (hexDigitValue ((escaped c).getD 1 0)).isSome ∧ (hexDigitValue ((escaped c).getD 2 0)).isSome ∧
      decodedByte ((escaped c).getD 1 0) ((escaped c).getD 2 0) = unescaped c :=
    forall_byte (by decide +kernel)
  intro c isUnsafe
  exact ⟨_, _, digits c isUnsafe⟩

theorem escaped_safe {c : UInt8} (safe : charIsUriSafe c = true) : escaped c = [c] := if_pos safe

theorem unescaped_safe {c : UInt8} (safe : charIsUriSafe c = true) : unescaped c = c :=
  if_pos (Or.inl safe)

/-- A safe character is neither the mark of an escape nor that of a query. -/
theorem charIsUriSafe_ne : ∀ c : UInt8, charIsUriSafe c = true → c ≠ 37 ∧ c ≠ 63 :=
  forall_byte (by decide +kernel)

theorem uriSafe_of_ne_zero : ∀ c : UInt8, charIsUriSafe c = true → c ≠ 0 → UriSafe c :=
  forall_byte (by decide +kernel)

theorem unescaped_eq_iff : ∀ c : UInt8,
    unescaped c = c ↔ charIsUriSafe c = true ∨ c.toNat < 128 ∨ c = 255 :=
  forall_byte (by decide +kernel)

end Characters

section Encoding

variable {path : Bytes}

/-- The counter fits wherever it is set. -/
def CounterFits (i : Nat) (rest : Bytes) : Prop :=
  ∀ k c, rest[k]? = some c → charIsUriSafe c = false → i + k + 1 < 2 ^ 31

theorem uriEncodeFrom_eq (rest : Bytes) :
    ∀ (i copied : Nat) (out : Bytes), path.drop i = rest → copied ≤ i →
      (CounterFits i rest → uriEncodeFrom path rest i copied out =
        .ok (out ++ (path.drop copied).take (i - copied) ++ rest.flatMap escaped)) ∧
      (¬ CounterFits i rest → uriEncodeFrom path rest i copied out = .error SvnError.undefinedBehaviour) := by
  induction rest with
  | nil =>
      intro i copied out here le
      refine ⟨fun _ => by simp [uriEncodeFrom], fun unfit => absurd ?_ unfit⟩
      intro k c found
      simp at found
  | cons c rest ih =>
      intro i copied out here le
      have after : path.drop (i + 1) = rest := by
        rw [← List.drop_drop, here, List.drop_one, List.tail_cons]
      have piece : (path.drop copied).take (i + 1 - copied) =
          (path.drop copied).take (i - copied) ++ [c] := by
        rw [show i + 1 - copied = i - copied + 1 by omega, List.take_add_one]
        congr 1
        rw [List.getElem?_drop, show copied + (i - copied) = i by omega]
        have first : (path.drop i)[0]? = some c := by rw [here]; rfl
        rw [List.getElem?_drop, Nat.add_zero] at first
        rw [first]
        rfl
      have fits (safe : charIsUriSafe c = true ∨ i + 1 < 2 ^ 31) :
          CounterFits i (c :: rest) ↔ CounterFits (i + 1) rest := by
        constructor
        · intro all k other found isUnsafe
          have := all (k + 1) other (by simpa using found) isUnsafe
          omega
        · intro later k other found isUnsafe
          cases k with
          | zero =>
              cases found
              rcases safe with safe | small
              · rw [safe] at isUnsafe
                cases isUnsafe
              · omega
          | succ k =>
              have := later k other (by simpa using found) isUnsafe
              omega
      rw [uriEncodeFrom, List.flatMap_cons]
      cases safe : charIsUriSafe c with
      | true =>
          rw [if_pos rfl, fits (Or.inl safe), escaped_safe safe]
          obtain ⟨encodes, fails⟩ := ih (i + 1) copied out after (by omega)
          refine ⟨fun fitting => ?_, fails⟩
          rw [encodes fitting, piece]
          simp
      | false =>
          rw [if_neg Bool.false_ne_true]
          by_cases large : 2 ^ 31 ≤ i + 1
          · rw [if_pos large]
            refine ⟨fun fitting => ?_, fun _ => rfl⟩
            have := fitting 0 c rfl safe
            omega
          · rw [if_neg large, fits (Or.inr (by omega))]
            obtain ⟨encodes, fails⟩ := ih (i + 1) (i + 1)
              (out ++ (path.drop copied).take (i - copied) ++ (escapeText c).take 3) after le_rfl
            refine ⟨fun fitting => ?_, fails⟩
            rw [encodes fitting, escaped, if_neg (by rw [safe]; exact Bool.false_ne_true)]
            simp

theorem isEscaped_escaped (path : Bytes) (clean : 0 ∉ path) : IsEscaped (path.flatMap escaped) := by
  induction path with
  | nil => trivial
  | cons c rest ih =>
      rw [List.mem_cons, not_or] at clean
      rw [List.flatMap_cons]
      cases safe : charIsUriSafe c with
      | true =>
          rw [escaped_safe safe]
          have marked := (charIsUriSafe_ne c safe).1
          rw [List.singleton_append, IsEscaped]
          · exact ⟨uriSafe_of_ne_zero c safe (Ne.symm clean.1), ih clean.2⟩
          · rintro first second rest rfl -
            exact marked rfl
      | false =>
          obtain ⟨first, second, text, isFirst, isSecond, -⟩ := escaped_unsafe c safe
          rw [text]
          exact ⟨isFirst, isSecond, ih clean.2⟩

/-- A character that starts no escape is read alone. -/
theorem uriDecodeFrom_cons (behind : Nat → UInt8) {c : UInt8} (plain : c ≠ 37) (rest : Bytes) (i : Nat)
    (queryStart : Bool) :
    uriDecodeFrom behind (c :: rest) i queryStart =
      ((if c = 43 ∧ queryStart = true then 32 else c) ::
          (uriDecodeFrom behind rest (i + 1) (queryStart || c = 63)).1,
        i :: (uriDecodeFrom behind rest (i + 1) (queryStart || c = 63)).2) := by
  rw [uriDecodeFrom.eq_def]
  by_cases query : c = 63
  · simp [query]
  · by_cases plus : c = 43 ∧ queryStart = true
    · simp [plus]
    · simp [query, plus, plain]

theorem uriDecodeFrom_escape (behind : Nat → UInt8) (first second : UInt8) (rest : Bytes) (i : Nat)
    (queryStart : Bool) :
    uriDecodeFrom behind (37 :: first :: second :: rest) i queryStart =
      (decodedByte first second :: (uriDecodeFrom behind rest (i + 3) queryStart).1,
        i :: (i + 1) :: (i + 2) :: (uriDecodeFrom behind rest (i + 3) queryStart).2) := rfl

/-- The decoder sees no query, so the pluses stay. -/
theorem uriDecodeFrom_escaped (behind : Nat → UInt8) (path : Bytes) :
    ∀ i, (uriDecodeFrom behind (path.flatMap escaped) i false).1 = path.map unescaped := by
  induction path with
  | nil => exact fun _ => rfl
  | cons c rest ih =>
      intro i
      rw [List.flatMap_cons, List.map_cons]
      cases safe : charIsUriSafe c with
      | true =>
          obtain ⟨notEscape, notQuery⟩ := charIsUriSafe_ne c safe
          rw [escaped_safe safe, unescaped_safe safe, List.singleton_append,
            uriDecodeFrom_cons behind notEscape, if_neg (by simp), decide_eq_false notQuery]
          exact congrArg (List.cons c) (ih (i + 1))
      | false =>
          obtain ⟨first, second, text, -, -, decoded⟩ := escaped_unsafe c safe
          rw [text, ← decoded]
          exact congrArg (List.cons _) (ih (i + 3))

end Encoding

/-- All reads lie inside the path unless an escape is cut. -/
theorem uriDecodeFrom_reads (behind : Nat → UInt8) (rest : Bytes) :
    ∀ i queryStart, (∀ index ∈ (uriDecodeFrom behind rest i queryStart).2, index < i + rest.length) ↔
      ¬ CutEscape rest := by
  fun_induction CutEscape rest with
  | case1 => simp [uriDecodeFrom]
  | case2 first second rest ih =>
      intro i queryStart
      rw [← ih (i + 3) queryStart]
      simp only [uriDecodeFrom_escape, List.forall_mem_cons, List.length_cons]
      constructor
      · rintro ⟨-, -, -, later⟩ index member
        have := later index member
        omega
      · intro later
        refine ⟨by omega, by omega, by omega, fun index member => ?_⟩
        have := later index member
        omega
  | case3 tail short =>
      intro i queryStart
      refine ⟨fun all => ?_, fun uncut => absurd trivial uncut⟩
      have last : i + 2 ∈ (uriDecodeFrom behind (37 :: tail) i queryStart).2 := by
        match tail, short with
        | [], _ => simp [uriDecodeFrom]
        | [first], _ => simp [uriDecodeFrom]
        | first :: second :: rest, short => exact absurd rfl (short first second rest)
      have := all (i + 2) last
      match tail, short with
      | [], _ => simp at this
      | [first], _ => simp at this
      | first :: second :: rest, short => exact absurd rfl (short first second rest)
  | case4 c rest long short ih =>
      intro i queryStart
      have plain : c ≠ 37 := fun mark => short mark
      rw [← ih (i + 1) (queryStart || c = 63), uriDecodeFrom_cons behind plain]
      simp only [List.forall_mem_cons, List.length_cons]
      constructor
      · rintro ⟨-, later⟩ index member
        have := later index member
        omega
      · intro later
        refine ⟨by omega, fun index member => ?_⟩
        have := later index member
        omega

/-- The property for one path: it is escaped as it should be, and read back whatever stands behind
the escaped text. -/
def UriRoundTrips (path : Bytes) : Prop :=
  ∃ text, uriEncode path = .ok text ∧ IsEscaped text ∧ ∀ behind, (uriDecode text behind).1 = path

example : uriEncode [97, 32, 98] = .ok [97, 37, 50, 48, 98] := by decide

end Subversion.Subr
