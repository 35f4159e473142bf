/-
This file models the keys of strings and representations, and the records that hand them out.
-/

import Mathlib.Logic.Function.Basic
import Subversion.Fs.Id

namespace Subversion.Fs.Keys

open Delta

/-- A digit of base 36 is a decimal digit or a lower-case letter. -/
def isKeyByte (byte : UInt8) : Prop := isDigit byte ∨ (97 ≤ byte.toNat ∧ byte.toNat ≤ 122)

instance (byte : UInt8) : Decidable (isKeyByte byte) := inferInstanceAs (Decidable (_ ∨ _))

/-- The digits are read from the last to the first. The flag is the carry out of them. -/
def bumpDigits : Bytes → Option (Bytes × Bool)
  | [] => some ([], true)
  | byte :: rest =>
      match bumpDigits rest with
      | none => none
      | some (next, carry) =>
          if isKeyByte byte then
            if carry then
              if byte = 122 then some (48 :: next, true)
              else some ((if byte = 57 then 97 else byte + 1) :: next, false)
            else some (byte :: next, false)
          else none

/-- The length of the new key and its text. A malformed key has no next key. -/
def nextKey (this : Bytes) : Option (Nat × Bytes) :=
  if 1 < this.length ∧ this.head? = some 48 then none
  else
    match bumpDigits this with
    | none => none
    | some (next, carry) =>
        if carry then some (this.length + 1, 49 :: next) else some (this.length, next)

/-- The value at this key is the key of the next string or rep. -/
def nextKeyKey : Bytes := [110, 101, 120, 116, 45, 107, 101, 121]

/-- The new key goes to a buffer of 200 bytes and is measured by its end mark. -/
def bumpInBuffer (this : Bytes) : Except SvnError Bytes :=
  if 200 < this.length + 2 then .error SvnError.undefinedBehaviour
  else
    match nextKey this with
    | none => .error SvnError.undefinedBehaviour
    | some (_, next) => .ok next

/-- The records of each key, in the order in which they were put. -/
abbrev StringsDb := Bytes → List Bytes

abbrev RepsDb := Bytes → Option Bytes

def createStrings : StringsDb := Function.update (fun _ => []) nextKeyKey [[48]]

def createReps : RepsDb := Function.update (fun _ => none) nextKeyKey (some [48])

/-- The first record of the next key is overwritten in place. -/
def getKeyAndBump (strings : StringsDb) : Except SvnError (Bytes × StringsDb) :=
  match strings nextKeyKey with
  | [] => .error ⟨.berkeleyDb, "getting next-key value"⟩
  | key :: others =>
      match bumpInBuffer key with
      | .error error => .error error
      | .ok next => .ok (key, Function.update strings nextKeyKey (next :: others))

def keyName (key : Bytes) : String := String.ofList (key.map fun byte => Char.ofNat byte.toNat)

/-- Without a key, a new string is started. -/
def stringAppend (strings : StringsDb) (key : Option Bytes) (bytes : Bytes) :
    Except SvnError (Bytes × StringsDb) :=
  match key with
  | some key => .ok (key, Function.update strings key (strings key ++ [bytes]))
  | none =>
      match getKeyAndBump strings with
      | .error error => .error error
      | .ok (key, strings) => .ok (key, Function.update strings key (strings key ++ [bytes]))

def stringClear (strings : StringsDb) (key : Bytes) : Except SvnError StringsDb :=
  if strings key = [] then
    .error ⟨.fsNoSuchString, "svn_fs__string_clear: no such string `" ++ keyName key ++ "'"⟩
  else .ok (Function.update strings key [[]])

def stringDelete (strings : StringsDb) (key : Bytes) : Except SvnError StringsDb :=
  if strings key = [] then
    .error ⟨.fsNoSuchString, "svn_fs__delete_string: no such string `" ++ keyName key ++ "'"⟩
  else .ok (Function.update strings key [])

/-- The key is bumped before the records are copied. -/
def stringCopy (strings : StringsDb) (key : Bytes) : Except SvnError (Bytes × StringsDb) :=
  match getKeyAndBump strings with
  | .error error => .error error
  | .ok (newKey, strings) =>
      if strings key = [] then .error ⟨.berkeleyDb, "getting next-key value"⟩
      else .ok (newKey, Function.update strings newKey (strings newKey ++ strings key))

/-- The rep is stored before the key is bumped. -/
def writeNewRep (reps : RepsDb) (rep : Bytes) : Except SvnError (Bytes × RepsDb) :=
  match reps nextKeyKey with
  | none => .error ⟨.berkeleyDb, "allocating new representation (getting next-key)"⟩
  | some key =>
      match bumpInBuffer key with
      | .error error => .error error
      | .ok next =>
          .ok (key, Function.update (Function.update reps key (some rep)) nextKeyKey (some next))

def writeRep (reps : RepsDb) (key rep : Bytes) : RepsDb := Function.update reps key (some rep)

def deleteRep (reps : RepsDb) (key : Bytes) : Except SvnError RepsDb :=
  if reps key = none then
    .error ⟨.fsNoSuchRepresentation, "svn_fs__delete_rep: no such representation `" ++ keyName key ++
      "'"⟩
  else .ok (Function.update reps key none)

/-- What is done to the two tables. The keys are texts. -/
inductive TableOp where
  | append (key : Option Bytes) (bytes : Bytes)
  | clear (key : Bytes)
  | delete (key : Bytes)
  | copy (key : Bytes)
  | writeNewRep (rep : Bytes)
  | writeRep (key rep : Bytes)
  | deleteRep (key : Bytes)

/-- The tables, with the keys that they handed out, the latest last. -/
structure KeyRun where
  strings : StringsDb
  reps : RepsDb
  newStrings : List Bytes
  newReps : List Bytes

def startRun : KeyRun := ⟨createStrings, createReps, [], []⟩

/-- Callers have no keys but those that were handed out. An unset key is empty. -/
def Given (keys : List Bytes) (key : Bytes) : Prop := key ∈ keys ∨ key = []

/-- The keys that an operation is called with. -/
def TableOp.Given (run : KeyRun) : TableOp → Prop
  | .append none _ => True
  | .append (some key) _ => Keys.Given run.newStrings key
  | .clear key => Keys.Given run.newStrings key
  | .delete key => Keys.Given run.newStrings key
  | .copy key => Keys.Given run.newStrings key
  | .writeNewRep _ => True
  | .writeRep key _ => Keys.Given run.newReps key
  | .deleteRep key => Keys.Given run.newReps key

def runTableOp (run : KeyRun) : TableOp → Except SvnError KeyRun
  | .append none bytes => (stringAppend run.strings none bytes).map fun (key, strings) =>
      { run with strings := strings, newStrings := run.newStrings ++ [key] }
  | .append (some key) bytes => (stringAppend run.strings (some key) bytes).map fun (_, strings) =>
      { run with strings := strings }
  | .clear key => (stringClear run.strings key).map fun strings => { run with strings := strings }
  | .delete key => (stringDelete run.strings key).map fun strings => { run with strings := strings }
  | .copy key => (stringCopy run.strings key).map fun (newKey, strings) =>
      { run with strings := strings, newStrings := run.newStrings ++ [newKey] }
  | .writeNewRep rep => (writeNewRep run.reps rep).map fun (key, reps) =>
      { run with reps := reps, newReps := run.newReps ++ [key] }
  | .writeRep key rep => .ok { run with reps := writeRep run.reps key rep }
  | .deleteRep key => (deleteRep run.reps key).map fun reps => { run with reps := reps }

/-- A failed operation is rolled back with its trail. -/
inductive Reached : KeyRun → Prop where
  | start : Reached startRun
  | step {run next : KeyRun} {op : TableOp} (earlier : Reached run) (given : op.Given run)
      (ran : runTableOp run op = .ok next) : Reached next

section Values

def keyByteValue (byte : UInt8) : Nat :=
  if isDigit byte then byte.toNat - 48 else byte.toNat - 87

/-- The value of a key in base 36. -/
def keyValue : Bytes → Nat
  | [] => 0
  | byte :: rest => keyByteValue byte * 36 ^ rest.length + keyValue rest

/-- Digits of base 36, without a leading zero unless the key is zero. -/
structure ValidKey (key : Bytes) : Prop where
  nonempty : key ≠ []
  digits : ∀ byte ∈ key, isKeyByte byte
  noLeadingZero : 1 < key.length → key.head? ≠ some 48

theorem keyByteValue_digit {byte : UInt8} (digit : isDigit byte) :
    keyByteValue byte = byte.toNat - 48 := if_pos digit

theorem keyByteValue_letter {byte : UInt8} (letter : 97 ≤ byte.toNat) :
    keyByteValue byte = byte.toNat - 87 := by
  apply if_neg
  rintro ⟨_, high⟩
  omega

theorem toNat_succ {byte : UInt8} (small : byte.toNat < 255) : (byte + 1).toNat = byte.toNat + 1 := by
  rw [UInt8.toNat_add]
  exact Nat.mod_eq_of_lt (by simpa using by omega)

/-- A digit that is not the last one goes up by one, over the gap between the digits and the
letters. -/
theorem keyByteValue_bump {byte : UInt8} (digit : isKeyByte byte) (notLast : byte ≠ 122) :
    let bumped : UInt8 := if byte = 57 then 97 else byte + 1
    isKeyByte bumped ∧ keyByteValue bumped = keyByteValue byte + 1 ∧ bumped ≠ 48 := by
  intro bumped
  have notZ : byte.toNat ≠ 122 := fun same => notLast (UInt8.toNat_inj.mp same)
  by_cases nine : byte = 57
  · subst nine
    decide
  · have notNine : byte.toNat ≠ 57 := fun same => nine (UInt8.toNat_inj.mp same)
    have isNext : bumped = byte + 1 := if_neg nine
    have value : bumped.toNat = byte.toNat + 1 := by
      rw [isNext]
      apply toNat_succ
      rcases digit with ⟨_, high⟩ | ⟨_, high⟩ <;> omega
    have notZero : bumped ≠ 48 := by
      intro zero
      rw [zero] at value
      rcases digit with ⟨low, _⟩ | ⟨low, _⟩ <;> simp at value <;> omega
    rcases digit with ⟨low, high⟩ | ⟨low, high⟩
    · have still : isDigit bumped := ⟨by omega, by omega⟩
      rw [keyByteValue_digit still, keyByteValue_digit ⟨low, high⟩, value]
      exact ⟨Or.inl still, by omega, notZero⟩
    · rw [keyByteValue_letter low, keyByteValue_letter (by omega), value]
      exact ⟨Or.inr ⟨by omega, by omega⟩, by omega, notZero⟩

/-- The digits go up by one, and the carry is worth one digit more. -/
theorem bumpDigits_value : ∀ {this : Bytes}, (∀ byte ∈ this, isKeyByte byte) →
    ∃ next carry, bumpDigits this = some (next, carry) ∧ next.length = this.length ∧
      (∀ byte ∈ next, isKeyByte byte) ∧
      keyValue next + (if carry then 36 ^ this.length else 0) = keyValue this + 1 ∧
      (carry = false → this.head? ≠ some 48 ∨ this.length = 1 → next.head? ≠ some 48) := by
  intro this
  induction this with
  | nil => exact fun _ => ⟨[], true, rfl, rfl, by simp, rfl, by simp⟩
  | cons byte rest ih =>
      intro digits
      have digit := digits byte List.mem_cons_self
      obtain ⟨next, carry, bumped, length, nextDigits, value, _⟩ :=
        ih fun other member => digits other (List.mem_cons_of_mem _ member)
      rw [bumpDigits, bumped]
      dsimp only
      rw [if_pos digit]
      cases carry with
      | false =>
          simp only [Bool.false_eq_true, if_false] at value ⊢
          refine ⟨byte :: next, false, rfl, by simp [length], ?_, ?_, ?_⟩
          · simpa using ⟨digit, nextDigits⟩
          · simp only [keyValue, length, Bool.false_eq_true, if_false]
            omega
          · intro _ head
            rcases head with head | single
            · exact head
            · -- a single digit leaves the carry set
              obtain rfl : rest = [] := List.eq_nil_of_length_eq_zero (by simpa using single)
              simp [bumpDigits] at bumped
      | true =>
          simp only [if_true] at value ⊢
          by_cases last : byte = 122
          · rw [if_pos last]
            refine ⟨48 :: next, true, rfl, by simp [length], ?_, ?_, by simp⟩
            · have zero : isKeyByte 48 := by decide
              simpa using ⟨zero, nextDigits⟩
            · have zero : keyByteValue 48 = 0 := by decide
              have top : keyByteValue byte = 35 := by subst last; decide
              simp only [keyValue, length, zero, top, List.length_cons, if_true, pow_succ]
              omega
          · rw [if_neg last]
            obtain ⟨isDigit, up, notZero⟩ := keyByteValue_bump digit last
            refine ⟨_, false, rfl, by simp [length], ?_, ?_, ?_⟩
            · simpa using ⟨isDigit, nextDigits⟩
            · simp only [keyValue, length, up, Bool.false_eq_true, if_false, Nat.add_mul]
              omega
            · intro _ _
              simpa using notZero

theorem nextKey_value {key : Bytes} (valid : ValidKey key) :
    ∃ next, nextKey key = some (next.length, next) ∧ ValidKey next ∧
      keyValue next = keyValue key + 1 ∧
      (next.length = key.length ∨ next.length = key.length + 1) := by
  obtain ⟨next, carry, bumped, length, digits, value, head⟩ := bumpDigits_value valid.digits
  have accepted : ¬ (1 < key.length ∧ key.head? = some 48) :=
    fun malformed => valid.noLeadingZero malformed.1 malformed.2
  rw [nextKey, if_neg accepted, bumped]
  dsimp only
  cases carry with
  | true =>
      simp only [if_true] at value ⊢
      refine ⟨49 :: next, by simp [length], ⟨by simp, ?_, by simp⟩, ?_, by simp [length]⟩
      · have one : isKeyByte 49 := by decide
        simpa using ⟨one, digits⟩
      · have one : keyByteValue 49 = 1 := by decide
        rw [keyValue, length, one, one_mul]
        omega
  | false =>
      simp only [Bool.false_eq_true, if_false, Nat.add_zero] at value ⊢
      have nonempty : next ≠ [] := by
        rintro rfl
        exact valid.nonempty (List.eq_nil_of_length_eq_zero length.symm)
      refine ⟨next, by rw [length], ⟨nonempty, digits, ?_⟩, value, Or.inl length⟩
      intro long
      apply head rfl
      exact Or.inl (valid.noLeadingZero (by omega))

theorem ValidKey.not_reserved {key : Bytes} (valid : ValidKey key) : key ≠ nextKeyKey := by
  rintro rfl
  exact absurd (valid.digits 45 (by decide)) (by decide)

end Values

section Runs

/-- The key that is handed out next, above all that were handed out before it. -/
structure HandsOut (keys : List Bytes) (key : Bytes) : Prop where
  valid : ValidKey key
  all : ∀ other ∈ keys, ValidKey other ∧ keyValue other < keyValue key
  increasing : keys.Pairwise fun first second => keyValue first < keyValue second

/-- The invariant of a run. -/
structure Counting (run : KeyRun) : Prop where
  strings : ∃ key, run.strings nextKeyKey = [key] ∧ HandsOut run.newStrings key
  reps : ∃ key, run.reps nextKeyKey = some key ∧ HandsOut run.newReps key

theorem HandsOut.start : HandsOut [] [48] := by
  have digit : isKeyByte 48 := by decide
  exact ⟨⟨by simp, by simpa using digit, by simp⟩, by simp, List.Pairwise.nil⟩

theorem HandsOut.not_reserved {keys : List Bytes} {key : Bytes} (handsOut : HandsOut keys key)
    {other : Bytes} (given : Given keys other) : nextKeyKey ≠ other := by
  rcases given with member | rfl
  · exact (handsOut.all other member).1.not_reserved.symm
  · decide

/-- The key is handed out, and the next one is its successor. -/
theorem HandsOut.next {keys : List Bytes} {key next : Bytes} (handsOut : HandsOut keys key)
    (bumped : bumpInBuffer key = .ok next) : HandsOut (keys ++ [key]) next := by
  obtain ⟨successor, isNext, valid, value, -⟩ := nextKey_value handsOut.valid
  rw [bumpInBuffer, isNext] at bumped
  split at bumped
  · cases bumped
  · cases bumped
    refine ⟨valid, ?_, ?_⟩
    · intro other member
      rcases List.mem_append.mp member with old | new
      · obtain ⟨isValid, below⟩ := handsOut.all other old
        exact ⟨isValid, by omega⟩
      · obtain rfl := List.mem_singleton.mp new
        exact ⟨handsOut.valid, by omega⟩
    · rw [List.pairwise_append]
      refine ⟨handsOut.increasing, List.pairwise_singleton _ _, ?_⟩
      intro first old second new
      obtain rfl := List.mem_singleton.mp new
      exact (handsOut.all first old).2

theorem getKeyAndBump_ok {strings next : StringsDb} {key : Bytes}
    (ran : getKeyAndBump strings = .ok (key, next)) :
    ∃ others bumped, strings nextKeyKey = key :: others ∧ bumpInBuffer key = .ok bumped ∧
      next = Function.update strings nextKeyKey (bumped :: others) := by
  rw [getKeyAndBump] at ran
  split at ran
  · cases ran
  · next first others found =>
      split at ran
      · cases ran
      · next bumped isBumped =>
          cases ran
          exact ⟨others, bumped, found, isBumped, rfl⟩

/-- A new string gets the key, and the counter moves on. -/
theorem Counting.handString {run : KeyRun} (counting : Counting run) {key : Bytes} {strings : StringsDb}
    (ran : getKeyAndBump run.strings = .ok (key, strings)) (records : List Bytes) :
    Counting { run with
      strings := Function.update strings key records
      newStrings := run.newStrings ++ [key] } := by
  obtain ⟨others, bumped, found, isBumped, rfl⟩ := getKeyAndBump_ok ran
  obtain ⟨first, isFirst, handsOut⟩ := counting.strings
  rw [isFirst] at found
  cases found
  refine ⟨⟨bumped, ?_, handsOut.next isBumped⟩, counting.reps⟩
  dsimp only
  rw [Function.update_of_ne handsOut.valid.not_reserved.symm, Function.update_self]

theorem Counting.setString {run : KeyRun} (counting : Counting run) {key : Bytes}
    (given : Given run.newStrings key) (records : List Bytes) :
    Counting { run with strings := Function.update run.strings key records } := by
  obtain ⟨next, found, handsOut⟩ := counting.strings
  refine ⟨⟨next, ?_, handsOut⟩, counting.reps⟩
  dsimp only
  rw [Function.update_of_ne (handsOut.not_reserved given), found]

theorem Counting.setRep {run : KeyRun} (counting : Counting run) {key : Bytes}
    (given : Given run.newReps key) (rep : Option Bytes) :
    Counting { run with reps := Function.update run.reps key rep } := by
  obtain ⟨next, found, handsOut⟩ := counting.reps
  refine ⟨counting.strings, ⟨next, ?_, handsOut⟩⟩
  dsimp only
  rw [Function.update_of_ne (handsOut.not_reserved given), found]

theorem map_ok {E A B : Type} {result : Except E A} {f : A → B} {value : B}
    (mapped : result.map f = .ok value) : ∃ inner, result = .ok inner ∧ f inner = value := by
  cases result with
  | error error => cases mapped
  | ok inner => exact ⟨inner, rfl, Except.ok.inj mapped⟩

theorem Counting.step {run next : KeyRun} {op : TableOp} (counting : Counting run)
    (given : op.Given run) (ran : runTableOp run op = .ok next) : Counting next := by
  cases op with
  | append key bytes =>
      cases key with
      | some key =>
          cases ran
          exact counting.setString given _
      | none =>
          obtain ⟨⟨key, strings⟩, appended, rfl⟩ := map_ok ran
          rw [stringAppend] at appended
          split at appended
          · cases appended
          · next bumped =>
              cases appended
              exact counting.handString bumped _
  | clear key =>
      obtain ⟨strings, cleared, rfl⟩ := map_ok ran
      rw [stringClear] at cleared
      split at cleared
      · cases cleared
      · cases cleared
        exact counting.setString given _
  | delete key =>
      obtain ⟨strings, deleted, rfl⟩ := map_ok ran
      rw [stringDelete] at deleted
      split at deleted
      · cases deleted
      · cases deleted
        exact counting.setString given _
  | copy key =>
      obtain ⟨⟨newKey, strings⟩, copied, rfl⟩ := map_ok ran
      rw [stringCopy] at copied
      split at copied
      · cases copied
      · next bumped =>
          split at copied
          · cases copied
          · cases copied
            exact counting.handString bumped _
  | writeNewRep rep =>
      obtain ⟨⟨key, reps⟩, wrote, rfl⟩ := map_ok ran
      obtain ⟨first, isFirst, handsOut⟩ := counting.reps
      rw [writeNewRep, isFirst] at wrote
      dsimp only at wrote
      split at wrote
      · cases wrote
      · next bumped isBumped =>
          cases wrote
          refine ⟨counting.strings, ⟨bumped, ?_, handsOut.next isBumped⟩⟩
          dsimp only
          rw [Function.update_self]
  | writeRep key rep =>
      cases ran
      exact counting.setRep given _
  | deleteRep key =>
      obtain ⟨reps, deleted, rfl⟩ := map_ok ran
      rw [deleteRep] at deleted
      split at deleted
      · cases deleted
      · cases deleted
        exact counting.setRep given _

theorem Reached.counting {run : KeyRun} (reached : Reached run) : Counting run := by
  induction reached with
  | start =>
      refine ⟨⟨[48], ?_, HandsOut.start⟩, ⟨[48], ?_, HandsOut.start⟩⟩
      · simp [startRun, createStrings]
      · simp [startRun, createReps]
  | step _ given ran ih => exact ih.step given ran

end Runs

/-- Keys that were handed out go up, so no two are the same, and none is the reserved key. -/
def CountsUp (keys : List Bytes) : Prop :=
  keys.Pairwise (fun first second => keyValue first < keyValue second) ∧ keys.Nodup ∧
    ∀ key ∈ keys, ValidKey key ∧ key ≠ nextKeyKey

theorem HandsOut.countsUp {keys : List Bytes} {key : Bytes} (handsOut : HandsOut keys key) :
    CountsUp keys := by
  refine ⟨handsOut.increasing, handsOut.increasing.imp ?_, ?_⟩
  · rintro first second less rfl
    exact absurd less (lt_irrefl _)
  · intro other member
    have valid := (handsOut.all other member).1
    exact ⟨valid, valid.not_reserved⟩

/-- The next key of a valid key is the key of the next value, and in every run the keys of new
strings and of new reps count up. -/
theorem keys_count_up :
    (∀ key, ValidKey key → ∃ next, nextKey key = some (next.length, next) ∧ ValidKey next ∧
      keyValue next = keyValue key + 1 ∧
      (next.length = key.length ∨ next.length = key.length + 1)) ∧
    ∀ run, Reached run → CountsUp run.newStrings ∧ CountsUp run.newReps := by
  refine ⟨fun key valid => nextKey_value valid, fun run reached => ?_⟩
  obtain ⟨⟨_, _, strings⟩, ⟨_, _, reps⟩⟩ := reached.counting
  exact ⟨strings.countsUp, reps.countsUp⟩

example : nextKey [122] = some (2, [49, 48]) := by decide

end Subversion.Fs.Keys
