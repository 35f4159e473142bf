/-
This file models skels, the texts in which the tables hold lists, and reads them back.
-/

import Subversion.Fs.Id

namespace Subversion.Fs

open Delta

inductive Skel where
  | atom (data : Bytes)
  | list (children : List Skel)

inductive CharType where
  | nothing
  | space
  | digit
  | paren
  | name
  deriving DecidableEq, Repr

/-- The table of the source. It does not depend on the locale. -/
def skelCharType (byte : UInt8) : CharType :=
  let value := byte.toNat
  if value = 9 ∨ value = 10 ∨ value = 12 ∨ value = 13 ∨ value = 32 then .space
  else if 48 ≤ value ∧ value ≤ 57 then .digit
  else if value = 40 ∨ value = 41 ∨ value = 91 ∨ value = 93 then .paren
  else if (65 ≤ value ∧ value ≤ 90) ∨ (97 ≤ value ∧ value ≤ 122) then .name
  else .nothing

/-- An atom with an implicit length ends before such a byte. -/
def endsAtom (byte : UInt8) : Bool :=
  skelCharType byte = .space || skelCharType byte = .paren

/-- An atom with an implicit length starts with a name character. -/
def implicitAtom : Bytes → Option (Skel × Bytes)
  | [] => none
  | byte :: rest =>
      if skelCharType byte = .name then
        some (.atom (byte :: rest.takeWhile fun byte => !endsAtom byte),
          rest.dropWhile fun byte => !endsAtom byte)
      else none

/-- The length is a decimal number, followed by one space. -/
def explicitAtom (data : Bytes) : Option (Skel × Bytes) :=
  match getSize data.length data with
  | none => none
  | some (_, []) => none
  | some (size, byte :: rest) =>
      if skelCharType byte ≠ .space then none
      else if rest.length < size then none
      else some (.atom (rest.take size), rest.drop size)

mutual

/-- Each unit of fuel enters a list or reads one of its elements. The bytes that are left over
come with the skel. -/
def parse : Nat → Bytes → Option (Skel × Bytes)
  | 0, _ => none
  | fuel + 1, data =>
      match data with
      | [] => none
      | byte :: rest =>
          if byte = 40 then
            match parseList fuel rest with
            | none => none
            | some (children, left) => some (.list children, left)
          else if skelCharType byte = .name then implicitAtom (byte :: rest)
          else explicitAtom (byte :: rest)

def parseList : Nat → Bytes → Option (List Skel × Bytes)
  | 0, _ => none
  | fuel + 1, data =>
      match data.dropWhile fun byte => skelCharType byte = .space with
      | [] => none
      | byte :: rest =>
          if byte = 41 then some ([], rest)
          else
            match parse fuel (byte :: rest) with
            | none => none
            | some (element, left) =>
                match parseList fuel left with
                | none => none
                | some (others, left) => some (element :: others, left)

end

/-- Bytes behind the skel are ignored. -/
def parseSkel (data : Bytes) : Option Skel := (parse (data.length + 1) data).map Prod.fst

def useImplicit : Bytes → Bool
  | [] => false
  | byte :: rest =>
      rest.length + 1 < 100 && skelCharType byte = .name && rest.all fun byte => !endsAtom byte

mutual

def unparseSkel : Skel → Bytes
  | .atom data => if useImplicit data then data else putSize data.length ++ 32 :: data
  | .list children => 40 :: unparseList children

/-- The closing parenthesis is part of the text. -/
def unparseList : List Skel → Bytes
  | [] => [41]
  | [child] => unparseSkel child ++ [41]
  | child :: rest => unparseSkel child ++ 32 :: unparseList rest

end

section RoundTrip

/-- No atom goes on here. -/
def Ends (rest : Bytes) : Prop := ∀ byte more, rest = byte :: more → endsAtom byte = true

theorem takeWhile_append_stop {p : UInt8 → Bool} (front rest : Bytes)
    (all : ∀ byte ∈ front, p byte = true) (stops : ∀ byte more, rest = byte :: more → p byte = false) :
    (front ++ rest).takeWhile p = front ∧ (front ++ rest).dropWhile p = rest := by
  induction front with
  | nil =>
      cases rest with
      | nil => exact ⟨rfl, rfl⟩
      | cons byte more =>
          have stop := stops byte more rfl
          simp [stop]
  | cons byte front ih =>
      have first := all byte List.mem_cons_self
      obtain ⟨taken, dropped⟩ := ih fun other member => all other (List.mem_cons_of_mem _ member)
      simp [first, taken, dropped]

theorem implicitAtom_append {data rest : Bytes} (implicit : useImplicit data = true)
    (ends : Ends rest) : implicitAtom (data ++ rest) = some (.atom data, rest) := by
  cases data with
  | nil => cases implicit
  | cons byte data =>
      simp only [useImplicit, Bool.and_eq_true, decide_eq_true_eq, List.all_eq_true] at implicit
      obtain ⟨⟨_, name⟩, plain⟩ := implicit
      obtain ⟨taken, dropped⟩ := takeWhile_append_stop data rest plain fun byte more split => by
        rw [ends byte more split]
        rfl
      rw [List.cons_append, implicitAtom, if_pos name, taken, dropped]

theorem explicitAtom_append (data rest : Bytes) :
    explicitAtom (putSize data.length ++ 32 :: data ++ rest) = some (.atom data, rest) := by
  have read := @getSize_putSize (putSize data.length ++ 32 :: data ++ rest).length data.length
    (32 :: data ++ rest) (by
      rintro byte more ⟨⟩
      decide)
  rw [if_pos (by simp; omega)] at read
  rw [explicitAtom]
  rw [List.append_assoc] at read ⊢
  rw [read]
  simp only [List.cons_append]
  rw [if_neg (by decide), if_neg (by simp)]
  simp

/-- The text of a skel starts with a parenthesis, a name character or a digit. -/
theorem unparseSkel_head (skel : Skel) :
    ∃ byte rest, unparseSkel skel = byte :: rest ∧ skelCharType byte ≠ .space ∧ byte ≠ 41 := by
  cases skel with
  | list children => exact ⟨40, unparseList children, by rw [unparseSkel], by decide, by decide⟩
  | atom data =>
      rw [unparseSkel]
      split
      · next implicit =>
          cases data with
          | nil => cases implicit
          | cons byte data =>
              simp only [useImplicit, Bool.and_eq_true, decide_eq_true_eq] at implicit
              refine ⟨byte, data, rfl, ?_, ?_⟩
              · rw [implicit.1.2]
                decide
              · rintro rfl
                exact absurd implicit.1.2 (by decide)
      · obtain ⟨byte, bytes, split⟩ := List.exists_cons_of_ne_nil (putSize_ne_nil data.length)
        have digit : isDigit byte := by
          apply isDigit_putDigits (data.length + 1) data.length byte
          rw [← putSize, split]
          exact List.mem_cons_self
        refine ⟨byte, bytes ++ 32 :: data, by rw [split]; rfl, ?_, ?_⟩
        · obtain ⟨low, high⟩ := digit
          simp only [skelCharType]
          rw [if_neg (by omega), if_pos (by omega)]
          decide
        · rintro rfl
          exact absurd digit (by decide)

theorem parse_atom (fuel : Nat) {data rest : Bytes} (ends : Ends rest) :
    parse (fuel + 1) (unparseSkel (.atom data) ++ rest) = some (.atom data, rest) := by
  obtain ⟨byte, text, split, _, _⟩ := unparseSkel_head (.atom data)
  rw [split, List.cons_append, parse, ← List.cons_append, ← split, unparseSkel]
  rw [unparseSkel] at split
  by_cases implicit : useImplicit data = true
  · rw [if_pos implicit] at split ⊢
    subst split
    have name : skelCharType byte = .name := by
      simp only [useImplicit, Bool.and_eq_true, decide_eq_true_eq] at implicit
      exact implicit.1.2
    have notList : byte ≠ 40 := by
      rintro rfl
      exact absurd name (by decide)
    rw [if_neg notList, if_pos name]
    exact implicitAtom_append implicit ends
  · rw [if_neg implicit] at split ⊢
    have digit : isDigit byte := by
      apply isDigit_putDigits (data.length + 1) data.length byte
      obtain ⟨first, others, head⟩ := List.exists_cons_of_ne_nil (putSize_ne_nil data.length)
      rw [head, List.cons_append] at split
      cases split
      rw [← putSize, head]
      exact List.mem_cons_self
    have notList : byte ≠ 40 := by
      rintro rfl
      exact absurd digit (by decide)
    have notName : skelCharType byte ≠ .name := by
      obtain ⟨low, high⟩ := digit
      simp only [skelCharType]
      rw [if_neg (by omega), if_pos (by omega)]
      decide
    rw [if_neg notList, if_neg notName]
    exact explicitAtom_append data rest

/-- Leading white space does not count. -/
theorem parseList_space (fuel : Nat) (data : Bytes) :
    parseList fuel (32 :: data) = parseList fuel data := by
  cases fuel with
  | zero => rfl
  | succ fuel =>
      have skips : (32 :: data).dropWhile (fun byte => skelCharType byte = .space) =
          data.dropWhile fun byte => skelCharType byte = .space :=
        List.dropWhile_cons_of_pos (by decide)
      rw [parseList, parseList, skips]

theorem parseList_element (fuel : Nat) (child : Skel) (rest : Bytes) :
    parseList (fuel + 1) (unparseSkel child ++ rest) =
      match parse fuel (unparseSkel child ++ rest) with
      | none => none
      | some (element, left) =>
          match parseList fuel left with
          | none => none
          | some (others, left) => some (element :: others, left) := by
  obtain ⟨byte, text, split, notSpace, notEnd⟩ := unparseSkel_head child
  have stays : (byte :: (text ++ rest)).dropWhile (fun byte => skelCharType byte = .space) =
      byte :: (text ++ rest) := List.dropWhile_cons_of_neg (by simpa using notSpace)
  rw [split, List.cons_append, parseList, stays]
  dsimp only
  rw [if_neg notEnd]

/-- The text of a skel is read back, whatever follows it. The induction is on the fuel, and both
functions are followed at once. -/
theorem parse_unparse (fuel : Nat) :
    (∀ skel rest, (unparseSkel skel).length ≤ fuel → Ends rest →
      parse fuel (unparseSkel skel ++ rest) = some (skel, rest)) ∧
    ∀ children rest, (unparseList children).length ≤ fuel →
      parseList fuel (unparseList children ++ rest) = some (children, rest) := by
  induction fuel with
  | zero =>
      constructor
      · intro skel rest short
        obtain ⟨byte, text, split, _⟩ := unparseSkel_head skel
        rw [split] at short
        simp at short
      · intro children rest short
        cases children with
        | nil => simp [unparseList] at short
        | cons child others => cases others <;> simp [unparseList] at short
  | succ fuel ih =>
      obtain ⟨skels, lists⟩ := ih
      constructor
      · intro skel rest short ends
        cases skel with
        | atom data => exact parse_atom fuel ends
        | list children =>
            rw [unparseSkel, List.length_cons] at short
            rw [unparseSkel, List.cons_append, parse, if_pos rfl, lists children rest (by omega)]
      · intro children rest short
        cases children with
        | nil =>
            have stays : (41 :: rest).dropWhile (fun byte => skelCharType byte = .space) = 41 :: rest :=
              List.dropWhile_cons_of_neg (by decide)
            rw [unparseList, List.singleton_append, parseList, stays]
            dsimp only
            rw [if_pos rfl]
        | cons child others =>
            cases others with
            | nil =>
                rw [unparseList, List.length_append, List.length_singleton] at short
                have closed := lists [] rest (by
                  obtain ⟨byte, text, split, _⟩ := unparseSkel_head child
                  rw [split, List.length_cons] at short
                  simp only [unparseList, List.length_singleton]
                  omega)
                rw [unparseList, List.singleton_append] at closed
                rw [unparseList, List.append_assoc, List.singleton_append, parseList_element,
                  skels child (41 :: rest) (by omega) (by rintro byte more ⟨⟩; decide)]
                dsimp only
                rw [closed]
            | cons next others =>
                rw [unparseList] at short ⊢
                · rw [List.length_append, List.length_cons] at short
                  rw [List.append_assoc, List.cons_append, parseList_element,
                    skels child _ (by omega) (by rintro byte more ⟨⟩; decide)]
                  dsimp only
                  rw [parseList_space, lists (next :: others) rest (by omega)]
                · simp
                · simp

/-- Reading a skel back from its text gives the skel. -/
theorem parseSkel_unparseSkel (skel : Skel) : parseSkel (unparseSkel skel) = some skel := by
  have whole := (parse_unparse ((unparseSkel skel).length + 1)).1 skel [] (Nat.le_succ _)
    (fun _ _ impossible => nomatch impossible)
  rw [List.append_nil] at whole
  rw [parseSkel, whole]
  rfl

end RoundTrip

end Subversion.Fs
