/-
This file models the dump of a hash to a file and its reading.
-/

import Mathlib.Data.List.AList
import Subversion.Subr.Numbers

namespace Subversion.Subr.HashDump

open Delta Fs

/-- What a reading function returns when it does not succeed. -/
inductive Status where
  | eof
  | warning
  | malformedFile
  | undefinedBehaviour
  deriving DecidableEq, Repr

/-- The entries stand in the order in which the hash gives them. -/
abbrev Hash := AList fun _ : Bytes => Bytes

def keylineMaxLen : Nat := 100

/-- The line that tells a length. -/
def lengthLine (mark : UInt8) (len : Nat) : Bytes := [mark, 32] ++ putSize len ++ [10]

def entryText (key value : Bytes) : Bytes :=
  lengthLine 75 key.length ++ (key ++ [10]) ++ (lengthLine 86 value.length ++ (value ++ [10]))

def endText : Bytes := [69, 78, 68, 10]

def hashWrite (hash : Hash) : Bytes :=
  (hash.entries.flatMap fun entry => entryText entry.1 entry.2) ++ endText

/-- A line without its newline, and the rest of the file. -/
def readLengthLine : Nat → Bytes → Except Status (Bytes × Bytes)
  | 0, _ => .error .warning
  | _ + 1, [] => .error .eof
  | limit + 1, c :: rest =>
      if c = 10 then .ok ([], rest)
      else
        match readLengthLine limit rest with
        | .error status => .error status
        | .ok (line, rest) => .ok (c :: line, rest)

/-- A number that is no `int` is not defined. -/
def atoi (text : Bytes) : Except Status Int :=
  let value : Int :=
    match text.dropWhile (isSpace ·) with
    | 45 :: digits => -(digitsValue 0 digits : Int)
    | 43 :: digits => digitsValue 0 digits
    | digits => digitsValue 0 digits
  if -2 ^ 31 ≤ value ∧ value < 2 ^ 31 then .ok value else .error .undefinedBehaviour

/-- So many bytes and a newline. A negative length is a huge one, and the bytes leave their buffer. -/
def readCounted (len : Int) (file : Bytes) : Except Status (Bytes × Bytes) :=
  if len < 0 then .error .undefinedBehaviour
  else
    match file.drop len.toNat with
    | [] => .error .eof
    | c :: rest => if c = 10 then .ok (file.take len.toNat, rest) else .error .malformedFile

/-- The length of a key is a `size_t`. -/
def readKey (line file : Bytes) : Except Status (Bytes × Bytes) :=
  match line with
  | 75 :: 32 :: digits =>
      match atoi digits with
      | .error status => .error status
      | .ok len => readCounted len file
  | _ => .error .malformedFile

/-- The length of a value is an `int`, and so is the size of its buffer, which is larger by one. -/
def readValue (line file : Bytes) : Except Status (Bytes × Bytes) :=
  match line with
  | 86 :: 32 :: digits =>
      match atoi digits with
      | .error status => .error status
      | .ok len => if len + 1 = 2 ^ 31 then .error .undefinedBehaviour else readCounted len file
  | _ => .error .malformedFile

/-- One key, its value, and the rest of the file. -/
def readEntry (line file : Bytes) : Except Status (Bytes × Bytes × Bytes) :=
  match readKey line file with
  | .error status => .error status
  | .ok (key, file) =>
      match readLengthLine keylineMaxLen file with
      | .error status => .error status
      | .ok (line, file) =>
          match readValue line file with
          | .error status => .error status
          | .ok (value, file) => .ok (key, value, file)

/-- The end of the file is allowed in the first line. Each unit of fuel reads one entry. -/
def hashReadFrom : Nat → Bool → Hash → Bytes → Except Status Hash
  | 0, _, _, _ => .error .undefinedBehaviour
  | fuel + 1, firstTime, hash, file =>
      match readLengthLine keylineMaxLen file with
      | .error status => if status = .eof ∧ firstTime = true then .ok hash else .error status
      | .ok (line, file) =>
          if line = [69, 78, 68] then .ok hash
          else
            match readEntry line file with
            | .error status => .error status
            | .ok (key, value, file) => hashReadFrom fuel false (hash.insert key value) file

/-- Every entry takes more than one byte. -/
def hashRead (hash : Hash) (file : Bytes) : Except Status Hash :=
  hashReadFrom (file.length + 1) true hash file

section Lines

variable {line rest : Bytes} {limit : Nat}

theorem readLengthLine_line (plain : 10 ∉ line) (short : line.length < limit) :
    readLengthLine limit (line ++ 10 :: rest) = .ok (line, rest) := by
  induction line generalizing limit with
  | nil =>
      obtain ⟨less, rfl⟩ := Nat.exists_eq_succ_of_ne_zero (Nat.ne_of_gt short)
      rfl
  | cons c line ih =>
      rw [List.mem_cons, not_or] at plain
      rw [List.length_cons] at short
      obtain ⟨less, rfl⟩ := Nat.exists_eq_succ_of_ne_zero (Nat.ne_of_gt (Nat.zero_lt_of_lt short))
      rw [List.cons_append, readLengthLine, if_neg (Ne.symm plain.1), ih plain.2 (by omega)]

theorem readLengthLine_open (plain : 10 ∉ line) (short : line.length < limit) :
    readLengthLine limit line = .error .eof := by
  induction line generalizing limit with
  | nil =>
      obtain ⟨less, rfl⟩ := Nat.exists_eq_succ_of_ne_zero (Nat.ne_of_gt short)
      rfl
  | cons c line ih =>
      rw [List.mem_cons, not_or] at plain
      rw [List.length_cons] at short
      obtain ⟨less, rfl⟩ := Nat.exists_eq_succ_of_ne_zero (Nat.ne_of_gt (Nat.zero_lt_of_lt short))
      rw [readLengthLine, if_neg (Ne.symm plain.1), ih plain.2 (by omega)]

theorem putDigits_length (fuel : Nat) :
    ∀ value width, 0 < width → value < 10 ^ width → (putDigits fuel value).length ≤ width := by
  induction fuel with
  | zero => exact fun _ _ _ _ => Nat.zero_le _
  | succ fuel ih =>
      intro value width positive small
      rw [putDigits, List.length_append, List.length_singleton]
      split
      · next more =>
          obtain ⟨less, rfl⟩ := Nat.exists_eq_succ_of_ne_zero (Nat.ne_of_gt positive)
          have below : value / 10 < 10 ^ less := by
            rw [Nat.div_lt_iff_lt_mul (by decide), ← Nat.pow_succ]
            exact small
          have wide : 0 < less := by
            by_contra none
            obtain rfl : less = 0 := by omega
            omega
          have := ih (value / 10) less wide below
          omega
      · rw [List.length_nil]
        omega

/-- The line of a length is short and has one newline. -/
theorem lengthLine_line (mark : UInt8) (other : mark ≠ 10) {len : Nat} (small : len < 2 ^ 31) :
    10 ∉ mark :: 32 :: putSize len ∧ (mark :: 32 :: putSize len).length < keylineMaxLen := by
  constructor
  · simp only [List.mem_cons, not_or]
    refine ⟨Ne.symm other, by decide, fun member => ?_⟩
    have digit := isDigit_putDigits (len + 1) len 10 member
    exact absurd digit (by decide)
  · have := putDigits_length (len + 1) len 10 (by decide) (by omega)
    simp only [List.length_cons, keylineMaxLen]
    rw [putSize]
    omega

theorem atoi_putSize {value : Nat} (small : value < 2 ^ 31) : atoi (putSize value) = .ok value := by
  obtain ⟨byte, bytes, split, solid, minus, plus⟩ := putSize_head value
  have whole := digitsValue_putSize value
  rw [split] at whole ⊢
  rw [atoi, List.dropWhile_cons_of_neg (by simpa using solid)]
  have read : (match byte :: bytes with
      | 45 :: digits => -(digitsValue 0 digits : Int)
      | 43 :: digits => digitsValue 0 digits
      | digits => digitsValue 0 digits) = (value : Int) := by
    split
    · next same => exact absurd (List.cons.inj same).1 minus
    · next same => exact absurd (List.cons.inj same).1 plus
    · rw [whole]
  rw [read]
  exact if_pos ⟨by omega, by omega⟩

end Lines

section Entries

variable {key value text rest : Bytes}

theorem readCounted_bytes (bytes rest : Bytes) :
    readCounted bytes.length (bytes ++ [10] ++ rest) = .ok (bytes, rest) := by
  rw [readCounted, if_neg (by omega), Int.toNat_natCast, List.append_assoc, List.drop_left,
    List.take_left]
  rfl

/-- Without the newline, the end of the file comes too early. -/
theorem readCounted_short {len : Nat} (short : text.length ≤ len) :
    readCounted len text = .error .eof := by
  rw [readCounted, if_neg (by omega), Int.toNat_natCast, List.drop_eq_nil_of_le short]

theorem readKey_length {len : Nat} (small : len < 2 ^ 31) (file : Bytes) :
    readKey (75 :: 32 :: putSize len) file = readCounted len file := by
  simp only [readKey, atoi_putSize small]

theorem readValue_length {len : Nat} (small : len < 2 ^ 31) (file : Bytes) :
    readValue (86 :: 32 :: putSize len) file =
      if len + 1 = 2 ^ 31 then .error .undefinedBehaviour else readCounted len file := by
  simp only [readValue, atoi_putSize small]
  congr 1
  rw [eq_iff_iff]
  omega

theorem readEntry_entry (keySmall : key.length < 2 ^ 31) (valueSmall : value.length < 2 ^ 31)
    (rest : Bytes) :
    readEntry (75 :: 32 :: putSize key.length)
        (key ++ [10] ++ (lengthLine 86 value.length ++ (value ++ [10]) ++ rest)) =
      if value.length + 1 = 2 ^ 31 then .error .undefinedBehaviour else .ok (key, value, rest) := by
  obtain ⟨plain, short⟩ := lengthLine_line 86 (by decide) valueSmall
  have line : readLengthLine keylineMaxLen (lengthLine 86 value.length ++ (value ++ [10]) ++ rest) =
      .ok (86 :: 32 :: putSize value.length, value ++ [10] ++ rest) := by
    rw [lengthLine, List.append_assoc, List.append_assoc]
    exact readLengthLine_line plain short
  rw [readEntry, readKey_length keySmall, readCounted_bytes]
  simp only [line, readValue_length valueSmall, readCounted_bytes]
  by_cases full : value.length + 1 = 2 ^ 31
  · rw [if_pos full, if_pos full]
  · rw [if_neg full, if_neg full]

/-- The text is a proper prefix of the part. -/
def Cut (part text : Bytes) : Prop := ∃ rest, rest ≠ [] ∧ part = text ++ rest

/-- A text ends in one of two parts. -/
theorem Cut.append {first second : Bytes} (cut : Cut (first ++ second) text) :
    Cut first text ∨ ∃ more, text = first ++ more ∧ Cut second more := by
  obtain ⟨rest, nonempty, whole⟩ := cut
  rcases List.append_eq_append_iff.mp whole with ⟨more, rfl, rfl⟩ | ⟨inside, rfl, rfl⟩
  · exact Or.inr ⟨more, rfl, rest, nonempty, rfl⟩
  · by_cases none : inside = []
    · subst none
      exact Or.inr ⟨[], by simp, second, by simpa using nonempty, rfl⟩
    · exact Or.inl ⟨inside, none, rfl⟩

/-- Before the newline at its end, a part has only what stands in front of it. -/
theorem Cut.newline {bytes : Bytes} (cut : Cut (bytes ++ [10]) text) : text <+: bytes := by
  rcases cut.append with ⟨rest, _, whole⟩ | ⟨more, rfl, rest, nonempty, whole⟩
  · exact ⟨rest, whole.symm⟩
  · cases more with
    | nil => rw [List.append_nil]
    | cons c more =>
        have lengths := congrArg List.length whole
        have := List.length_pos_of_ne_nil nonempty
        simp only [List.length_append, List.length_cons, List.length_nil] at lengths
        omega

theorem readCounted_cut {bytes : Bytes} (cut : Cut (bytes ++ [10]) text) :
    readCounted bytes.length text = .error .eof :=
  readCounted_short cut.newline.length_le

/-- A cut line has no newline. -/
theorem readLengthLine_cut {line : Bytes} {limit : Nat} (plain : 10 ∉ line)
    (short : line.length < limit) (cut : Cut (line ++ [10]) text) :
    10 ∉ text ∧ readLengthLine limit text = .error .eof := by
  have front := cut.newline
  have open' : 10 ∉ text := fun member => plain (front.subset member)
  exact ⟨open', readLengthLine_open open' (Nat.lt_of_le_of_lt front.length_le short)⟩

theorem readEntry_cut (keySmall : key.length < 2 ^ 31) (valueSmall : value.length + 1 < 2 ^ 31)
    (cut : Cut (key ++ [10] ++ (lengthLine 86 value.length ++ (value ++ [10]))) text) :
    readEntry (75 :: 32 :: putSize key.length) text = .error .eof := by
  have small : value.length < 2 ^ 31 := Nat.lt_of_succ_lt valueSmall
  obtain ⟨plain, short⟩ := lengthLine_line 86 (by decide) small
  rw [readEntry, readKey_length keySmall]
  rcases cut.append with keyCut | ⟨file, rfl, valueCut⟩
  · rw [readCounted_cut keyCut]
  · rw [readCounted_bytes]
    rcases valueCut.append with lineCut | ⟨file, rfl, bytesCut⟩
    · simp only [(readLengthLine_cut plain short lineCut).2]
    · have line : readLengthLine keylineMaxLen (lengthLine 86 value.length ++ file) =
          .ok (86 :: 32 :: putSize value.length, file) := by
        rw [lengthLine, List.append_assoc]
        exact readLengthLine_line plain short
      simp only [line, readValue_length small, if_neg (Nat.ne_of_lt valueSmall),
        readCounted_cut bytesCut]

end Entries

section Reading

variable {hash : Hash} {firstTime : Bool} {fuel : Nat} {text : Bytes}

/-- The lengths are below the bound of the format. -/
def Short (entry : Sigma fun _ : Bytes => Bytes) : Prop :=
  entry.1.length < 2 ^ 31 ∧ entry.2.length < 2 ^ 31

/-- The value has room for the byte after it. -/
def Roomy (entry : Sigma fun _ : Bytes => Bytes) : Prop := entry.2.length + 1 < 2 ^ 31

abbrev dumped (entries : List (Sigma fun _ : Bytes => Bytes)) : Bytes :=
  (entries.flatMap fun entry => entryText entry.1 entry.2) ++ endText

/-- The first line of an entry is its key's. -/
theorem hashReadFrom_key {len : Nat} (small : len < 2 ^ 31) (file : Bytes) :
    hashReadFrom (fuel + 1) firstTime hash (lengthLine 75 len ++ file) =
      match readEntry (75 :: 32 :: putSize len) file with
      | .error status => .error status
      | .ok (key, value, file) => hashReadFrom fuel false (hash.insert key value) file := by
  obtain ⟨plain, short⟩ := lengthLine_line 75 (by decide) small
  have line : readLengthLine keylineMaxLen (lengthLine 75 len ++ file) =
      .ok (75 :: 32 :: putSize len, file) := by
    rw [lengthLine, List.append_assoc]
    exact readLengthLine_line plain short
  have other : (75 : UInt8) :: 32 :: putSize len ≠ [69, 78, 68] := fun same =>
    absurd (List.cons.inj same).1 (by decide)
  rw [hashReadFrom, line]
  simp only [if_neg other]

/-- The first line is cut. -/
theorem hashReadFrom_open (cutLine : 10 ∉ text ∧ readLengthLine keylineMaxLen text = .error .eof) :
    hashReadFrom (fuel + 1) firstTime hash text =
      if firstTime = true ∧ 10 ∉ text then .ok hash else .error .eof := by
  rw [hashReadFrom, cutLine.2]
  simp only [cutLine.1, not_false_eq_true, and_true, true_and]

theorem dumped_cons (entry : Sigma fun _ : Bytes => Bytes)
    (entries : List (Sigma fun _ : Bytes => Bytes)) :
    dumped (entry :: entries) =
      lengthLine 75 entry.1.length ++ ((entry.1 ++ [10] ++
        (lengthLine 86 entry.2.length ++ (entry.2 ++ [10]))) ++ dumped entries) := by
  simp only [dumped, List.flatMap_cons, entryText, List.append_assoc]

/-- By induction on the entries that stand in the text. -/
theorem hashReadFrom_cut (entries : List (Sigma fun _ : Bytes => Bytes))
    (short : ∀ entry ∈ entries, Short entry) (roomy : ∀ entry ∈ entries, Roomy entry)
    (cut : Cut (dumped entries) text) (enough : text.length < fuel) :
    hashReadFrom fuel firstTime hash text =
      if firstTime = true ∧ 10 ∉ text then .ok hash else .error .eof := by
  induction entries generalizing text fuel firstTime hash with
  | nil =>
      obtain ⟨fuel, rfl⟩ := Nat.exists_eq_succ_of_ne_zero (Nat.ne_of_gt (Nat.zero_lt_of_lt enough))
      have plain : (10 : UInt8) ∉ [69, 78, 68] := by decide
      exact hashReadFrom_open (readLengthLine_cut plain (by decide) cut)
  | cons entry entries ih =>
      obtain ⟨keySmall, valueSmall⟩ := short entry List.mem_cons_self
      have room := roomy entry List.mem_cons_self
      obtain ⟨fuel, rfl⟩ := Nat.exists_eq_succ_of_ne_zero (Nat.ne_of_gt (Nat.zero_lt_of_lt enough))
      rw [dumped_cons] at cut
      rcases cut.append with lineCut | ⟨file, rfl, restCut⟩
      · obtain ⟨plain, fits⟩ := lengthLine_line 75 (by decide) keySmall
        exact hashReadFrom_open (readLengthLine_cut plain fits lineCut)
      · have newline : 10 ∈ lengthLine 75 entry.1.length ++ file := by simp [lengthLine]
        rw [hashReadFrom_key keySmall, if_neg fun both => both.2 newline]
        rcases restCut.append with entryCut | ⟨more, rfl, laterCut⟩
        · rw [readEntry_cut keySmall room entryCut]
        · rw [List.append_assoc, readEntry_entry keySmall valueSmall,
            if_neg (Nat.ne_of_lt room)]
          have less : more.length < fuel := by
            simp only [List.length_append, List.length_singleton] at enough
            omega
          have later : hashReadFrom fuel false (hash.insert entry.1 entry.2) more = _ :=
            ih (fun entry member => short entry (List.mem_cons_of_mem _ member))
              (fun entry member => roomy entry (List.mem_cons_of_mem _ member)) laterCut less
          exact later.trans (if_neg fun both => absurd both.1 (by decide))

/-- A whole entry is taken in when its value has room. -/
theorem hashReadFrom_dumped_cons (entry : Sigma fun _ : Bytes => Bytes)
    (entries : List (Sigma fun _ : Bytes => Bytes)) (short : Short entry) :
    hashReadFrom (fuel + 1) firstTime hash (dumped (entry :: entries)) =
      if entry.2.length + 1 = 2 ^ 31 then .error .undefinedBehaviour
      else hashReadFrom fuel false (hash.insert entry.1 entry.2) (dumped entries) := by
  rw [dumped_cons, hashReadFrom_key short.1, List.append_assoc, readEntry_entry short.1 short.2]
  by_cases full : entry.2.length + 1 = 2 ^ 31
  · rw [if_pos full, if_pos full]
  · rw [if_neg full, if_neg full]

theorem dumped_length_cons (entry : Sigma fun _ : Bytes => Bytes)
    (entries : List (Sigma fun _ : Bytes => Bytes)) :
    (dumped entries).length < (dumped (entry :: entries)).length := by
  simp only [dumped_cons, List.length_append, List.length_singleton]
  omega

/-- Entries under different names are read, each under its own name. -/
theorem hashReadFrom_dumped (entries : List (Sigma fun _ : Bytes => Bytes))
    (distinct : entries.NodupKeys) (short : ∀ entry ∈ entries, Short entry)
    (roomy : ∀ entry ∈ entries, Roomy entry) (enough : (dumped entries).length < fuel) :
    ∃ read, hashReadFrom fuel firstTime hash (dumped entries) = .ok read ∧
      ∀ key, read.lookup key =
        match entries.dlookup key with
        | some value => some value
        | none => hash.lookup key := by
  induction entries generalizing fuel firstTime hash with
  | nil =>
      obtain ⟨fuel, rfl⟩ := Nat.exists_eq_succ_of_ne_zero (Nat.ne_of_gt (Nat.zero_lt_of_lt enough))
      exact ⟨hash, rfl, fun key => rfl⟩
  | cons entry entries ih =>
      obtain ⟨fuel, rfl⟩ := Nat.exists_eq_succ_of_ne_zero (Nat.ne_of_gt (Nat.zero_lt_of_lt enough))
      rw [List.nodupKeys_cons] at distinct
      have less := dumped_length_cons entry entries
      obtain ⟨read, same, lookups⟩ : ∃ read,
          hashReadFrom fuel false (hash.insert entry.1 entry.2) (dumped entries) = .ok read ∧ _ :=
        ih distinct.2 (fun entry member => short entry (List.mem_cons_of_mem _ member))
          (fun entry member => roomy entry (List.mem_cons_of_mem _ member)) (by omega)
      refine ⟨read, ?_, ?_⟩
      · rw [hashReadFrom_dumped_cons entry entries (short entry List.mem_cons_self),
          if_neg (Nat.ne_of_lt (roomy entry List.mem_cons_self)), same]
      · intro key
        obtain ⟨head, value⟩ := entry
        rw [lookups key]
        by_cases equal : key = head
        · subst equal
          have absent : entries.dlookup key = none := List.dlookup_eq_none.mpr distinct.1
          simp [absent, List.dlookup_cons_eq, AList.lookup_insert]
        · rw [List.dlookup_cons_ne _ _ equal, AList.lookup_insert_ne equal]

/-- A value without room ends the reading, wherever its entry stands. -/
theorem hashReadFrom_full (entries : List (Sigma fun _ : Bytes => Bytes))
    (short : ∀ entry ∈ entries, Short entry) (full : ∃ entry ∈ entries, ¬ Roomy entry) :
    hashReadFrom fuel firstTime hash (dumped entries) = .error .undefinedBehaviour := by
  induction entries generalizing fuel firstTime hash with
  | nil => simp at full
  | cons entry entries ih =>
      cases fuel with
      | zero => rfl
      | succ fuel =>
          have here := short entry List.mem_cons_self
          rw [hashReadFrom_dumped_cons entry entries here]
          by_cases room : Roomy entry
          · rw [if_neg (Nat.ne_of_lt room)]
            refine ih (fun entry member => short entry (List.mem_cons_of_mem _ member)) ?_
            obtain ⟨other, member, none⟩ := full
            rcases List.mem_cons.mp member with rfl | member
            · exact absurd room none
            · exact ⟨other, member, none⟩
          · exact if_pos (Nat.le_antisymm here.2 (Nat.not_lt.mp room))

end Reading

section Dump

/-- The same value under each key. -/
def Same (read hash : Hash) : Prop := ∀ key, read.lookup key = hash.lookup key

/-- Undefined behaviour is not an error that is returned. -/
def Refused (outcome : Except Status Hash) : Prop :=
  ∃ status, status ≠ .undefinedBehaviour ∧ outcome = .error status

/-- A cut dump is refused when a newline is left in it, and only a value of full size is not read. -/
theorem hashRead_hashWrite_iff (hash : Hash) (short : ∀ entry ∈ hash.entries, Short entry)
    (text : Bytes) (cut : Cut (hashWrite hash) text) :
    ((∃ read, hashRead ∅ (hashWrite hash) = .ok read ∧ Same read hash) ∧
        Refused (hashRead ∅ text)) ↔
      (∀ entry ∈ hash.entries, Roomy entry) ∧ 10 ∈ text := by
  have whole : hashWrite hash = dumped hash.entries := rfl
  constructor
  · rintro ⟨⟨read, accepted, _⟩, status, _, refused⟩
    have roomy : ∀ entry ∈ hash.entries, Roomy entry := by
      by_contra none
      push Not at none
      rw [hashRead, whole, hashReadFrom_full hash.entries short none] at accepted
      exact absurd accepted (by simp)
    refine ⟨roomy, ?_⟩
    by_contra line
    rw [hashRead, hashReadFrom_cut hash.entries short roomy (whole ▸ cut) (Nat.lt_succ_self _),
      if_pos ⟨rfl, line⟩] at refused
    exact absurd refused (by simp)
  · rintro ⟨roomy, newline⟩
    constructor
    · obtain ⟨read, accepted, lookups⟩ : ∃ read, hashRead ∅ (dumped hash.entries) = .ok read ∧ _ :=
        hashReadFrom_dumped hash.entries hash.nodupKeys short roomy (Nat.lt_succ_self _)
      refine ⟨read, accepted, fun key => ?_⟩
      rw [lookups key]
      show _ = hash.entries.dlookup key
      cases hash.entries.dlookup key <;> rfl
    · refine ⟨.eof, by decide, ?_⟩
      rw [hashRead, hashReadFrom_cut hash.entries short roomy (whole ▸ cut) (Nat.lt_succ_self _),
        if_neg fun both => both.2 newline]

def oneEntry : Hash := AList.insert [97] [98] ∅

theorem oneEntry_short : ∀ entry ∈ oneEntry.entries, Short entry := by
  intro entry member
  obtain rfl := List.mem_singleton.mp (show entry ∈ [⟨[97], [98]⟩] from member)
  exact ⟨by decide, by decide⟩

theorem hashRead_hashWrite_iff_key :
    (∃ read, hashRead ∅ (hashWrite oneEntry) = .ok read ∧ Same read oneEntry) ∧
      Refused (hashRead ∅ [75, 32, 49, 10]) := by
  refine (hashRead_hashWrite_iff oneEntry oneEntry_short [75, 32, 49, 10]
    ⟨[97, 10, 86, 32, 49, 10, 98, 10] ++ endText, by decide, by decide⟩).mpr ⟨?_, by decide⟩
  intro entry member
  obtain rfl := List.mem_singleton.mp (show entry ∈ [⟨[97], [98]⟩] from member)
  exact (by decide : (1 : Nat) + 1 < 2 ^ 31)

/-- A file that ends inside the first line is taken for an empty one. -/
theorem cut_header_is_empty :
    (∀ entry ∈ oneEntry.entries, Short entry) ∧ Cut (hashWrite oneEntry) [75] ∧
      hashRead ∅ [75] = .ok ∅ ∧ ¬ Refused (hashRead ∅ [75]) := by
  have accepted : hashRead ∅ [75] = .ok ∅ := rfl
  refine ⟨oneEntry_short, ⟨[32, 49, 10, 97, 10, 86, 32, 49, 10, 98, 10] ++ endText, by decide,
    by decide⟩, accepted, ?_⟩
  rintro ⟨status, _, refused⟩
  rw [accepted] at refused
  exact absurd refused (by simp)

end Dump

end Subversion.Subr.HashDump
