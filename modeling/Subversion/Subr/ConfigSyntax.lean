/-
This file compares the parser of configuration files with the syntax that the generated README describes.
-/

import Subversion.Subr.ConfigFile

namespace Subversion.Subr.ConfigFile

open Delta

section Readme

def textLines : Bytes → List Bytes
  | [] => [[]]
  | byte :: rest => if byte = 10 then [] :: textLines rest else (textLines rest).modifyHead (byte :: ·)

def unlines : List Bytes → Bytes
  | [] => []
  | [line] => line
  | line :: rest => line ++ 10 :: unlines rest

/-- An option as it is written: the part of the value after the separator, and the continuation lines. -/
structure Definition where
  sectionName : Bytes
  name : Bytes
  first : Bytes
  more : List Bytes
  deriving DecidableEq, Repr

/-- The whitespace around a line continuation is compressed into a single space. -/
def Definition.value (definition : Definition) : Bytes :=
  trimmed (trimmed definition.first ++ definition.more.flatMap fun line => 32 :: trimmed line)

/-- What the lines read so far mean. The last definition stands first. -/
structure Reading where
  sectionName : Option Bytes
  opened : Bool
  definitions : List Definition
  deriving DecidableEq, Repr

def Reading.start : Reading := ⟨none, false, []⟩

def Reading.closed (reading : Reading) : Reading := { reading with opened := false }

/-- The names are compared without their case. -/
def lastValue (definitions : List Definition) (sectionName name : Bytes) : Option Bytes :=
  (definitions.find? fun definition =>
    makeHashKey sectionName = makeHashKey definition.sectionName ∧
      makeHashKey name = makeHashKey definition.name).map Definition.value

def IsBlank (line : Bytes) : Prop := ∀ byte ∈ line, isSpace byte

instance : DecidablePred IsBlank := fun _ => inferInstanceAs (Decidable (∀ byte ∈ _, isSpace byte))

def StartsWithSpace (line : Bytes) : Prop := ∃ byte, line.head? = some byte ∧ isSpace byte

instance (line : Bytes) : Decidable (StartsWithSpace line) :=
  match line with
  | [] => .isFalse nofun
  | byte :: _ => decidable_of_iff (isSpace byte)
      ⟨fun space => ⟨byte, rfl, space⟩, fun found => by
        obtain ⟨_, same, space⟩ := found
        cases same
        exact space⟩

def optionName (line : Bytes) : Bytes := line.takeWhile fun byte => byte ≠ 58 ∧ byte ≠ 61

/-- The value begins behind the separator. -/
def optionValue (line : Bytes) : Bytes := line.drop ((optionName line).length + 1)

def readContinuation (reading : Reading) (line : Bytes) : Option Reading :=
  match reading.opened, reading.definitions with
  | true, last :: earlier =>
      some { reading with definitions := { last with more := last.more ++ [line] } :: earlier }
  | _, _ => none

def readHeader (reading : Reading) (line : Bytes) : Option Reading :=
  if 93 ∈ line then some ⟨some ((line.drop 1).takeWhile (· ≠ 93)), false, reading.definitions⟩ else none

/-- An option has a name, a separator, and a section. -/
def readOption (reading : Reading) (line : Bytes) : Option Reading :=
  match reading.sectionName with
  | none => none
  | some sectionName =>
      if optionName line = [] ∨ optionName line = line then none
      else some ⟨some sectionName, true,
        ⟨sectionName, trimmed (optionName line), optionValue line, []⟩ :: reading.definitions⟩

/-- One line, as the README describes the syntax. -/
def readLine (reading : Reading) (line : Bytes) : Option Reading :=
  if IsBlank line then some reading.closed
  else if StartsWithSpace line then readContinuation reading line
  else if line.head? = some 35 then some reading.closed
  else if line.head? = some 91 then readHeader reading line
  else readOption reading line

def readLines : Reading → List Bytes → Option Reading
  | reading, [] => some reading
  | reading, line :: lines => (readLine reading line).bind fun next => readLines next lines

end Readme

section Scans

variable {stops : UInt8 → Bool} {front back line : Bytes} {lines : List Bytes} {byte : UInt8}

theorem readUntil_stop (free : ∀ byte ∈ front, stops byte = false) (stop : stops byte = true) (back : Bytes) :
    readUntil stops (front ++ byte :: back) = ⟨front, some byte, back⟩ := by
  induction front with
  | nil => rw [List.nil_append, readUntil, if_pos stop]
  | cons first front ih =>
      rw [List.forall_mem_cons] at free
      rw [List.cons_append, readUntil, if_neg (Bool.eq_false_iff.mp free.1), ih free.2]

theorem readUntil_end (free : ∀ byte ∈ front, stops byte = false) :
    readUntil stops front = ⟨front, none, []⟩ := by
  induction front with
  | nil => rfl
  | cons first front ih =>
      rw [List.forall_mem_cons] at free
      rw [readUntil, if_neg (Bool.eq_false_iff.mp free.1), ih free.2]

/-- The character that ends a line which has others behind it. -/
def lineEnd (lines : List Bytes) : Option UInt8 := if lines = [] then none else some 10

theorem unlines_two (line next : Bytes) (lines : List Bytes) :
    unlines (line :: next :: lines) = line ++ 10 :: unlines (next :: lines) := rfl

theorem unlines_append (front back : Bytes) (lines : List Bytes) :
    unlines ((front ++ back) :: lines) = front ++ unlines (back :: lines) := by
  cases lines with
  | nil => rfl
  | cons line lines => rw [unlines_two, unlines_two, List.append_assoc]

theorem unlines_cons (byte : UInt8) (back : Bytes) (lines : List Bytes) :
    unlines ((byte :: back) :: lines) = byte :: unlines (back :: lines) :=
  unlines_append [byte] back lines

/-- A loop that does not stop inside of a line stops at its end. -/
theorem readUntil_line (newline : stops 10 = true) (free : ∀ byte ∈ line, stops byte = false)
    (lines : List Bytes) :
    readUntil stops (unlines (line :: lines)) = ⟨line, lineEnd lines, unlines lines⟩ := by
  cases lines with
  | nil => exact readUntil_end free
  | cons next lines => exact readUntil_stop free newline _

theorem readUntil_inside (free : ∀ byte ∈ front, stops byte = false) (stop : stops byte = true) :
    readUntil stops (unlines ((front ++ byte :: back) :: lines)) =
      ⟨front, some byte, unlines (back :: lines)⟩ := by
  rw [unlines_append, unlines_cons, readUntil_stop free stop]

theorem skipToEoln_line (plain : (10 : UInt8) ∉ line) (lines : List Bytes) :
    skipToEoln (unlines (line :: lines)) = ⟨line, lineEnd lines, unlines lines⟩ := by
  apply readUntil_line (decide_eq_true rfl)
  intro byte member
  rw [decide_eq_false_iff_not]
  rintro rfl
  exact plain member

theorem skipWhitespace_blank (blank : IsBlank line) (plain : (10 : UInt8) ∉ line) (lines : List Bytes) :
    skipWhitespace (unlines (line :: lines)) = ⟨line, lineEnd lines, unlines lines⟩ := by
  apply readUntil_line (by decide)
  intro byte member
  rw [decide_eq_false_iff_not, not_or, not_not]
  refine ⟨?_, blank byte member⟩
  rintro rfl
  exact plain member

theorem skipWhitespace_text (blank : IsBlank front) (plain : (10 : UInt8) ∉ front) (text : ¬ isSpace byte) :
    skipWhitespace (unlines ((front ++ byte :: back) :: lines)) =
      ⟨front, some byte, unlines (back :: lines)⟩ := by
  apply readUntil_inside
  · intro byte member
    rw [decide_eq_false_iff_not, not_or, not_not]
    refine ⟨?_, blank byte member⟩
    rintro rfl
    exact plain member
  · exact decide_eq_true (.inr text)

theorem skipWhitespace_first (text : ¬ isSpace byte) (back : Bytes) (lines : List Bytes) :
    skipWhitespace (unlines ((byte :: back) :: lines)) = ⟨[], some byte, unlines (back :: lines)⟩ := by
  have nothing : IsBlank [] := List.forall_mem_nil _
  have skipped := @skipWhitespace_text [] back lines byte nothing List.not_mem_nil text
  rw [List.nil_append] at skipped
  exact skipped

/-- A line is blank, or it has a first character that is not whitespace. -/
theorem isBlank_or_split (line : Bytes) :
    IsBlank line ∨ ∃ front byte back, line = front ++ byte :: back ∧ IsBlank front ∧ ¬ isSpace byte := by
  induction line with
  | nil => exact .inl nofun
  | cons first rest ih =>
      by_cases space : isSpace first
      · obtain blank | ⟨front, byte, back, rfl, blank, text⟩ := ih
        · exact .inl (List.forall_mem_cons.mpr ⟨space, blank⟩)
        · exact .inr ⟨first :: front, byte, back, rfl, List.forall_mem_cons.mpr ⟨space, blank⟩, text⟩
      · exact .inr ⟨[], first, rest, rfl, nofun, space⟩

/-- Where a prefix is taken, the next byte is the one that ends it. -/
theorem split_takeWhile {keeps : UInt8 → Bool} (line : Bytes) : line.takeWhile keeps ≠ line →
    ∃ stop, keeps stop = false ∧
      line = line.takeWhile keeps ++ stop :: line.drop ((line.takeWhile keeps).length + 1) := by
  induction line with
  | nil => exact fun differs => absurd rfl differs
  | cons byte rest ih =>
      intro differs
      by_cases keep : keeps byte = true
      · rw [List.takeWhile_cons_of_pos keep] at differs ⊢
        obtain ⟨stop, stops, split⟩ := ih fun same => differs (by rw [same])
        exact ⟨stop, stops, congrArg (byte :: ·) split⟩
      · rw [List.takeWhile_cons_of_neg keep]
        exact ⟨byte, Bool.eq_false_iff.mpr keep, rfl⟩

theorem unlines_textLines (text : Bytes) : unlines (textLines text) = text ∧ textLines text ≠ [] := by
  induction text with
  | nil => exact ⟨rfl, nofun⟩
  | cons byte rest ih =>
      obtain ⟨joined, nonempty⟩ := ih
      obtain ⟨line, lines, split⟩ := List.exists_cons_of_ne_nil nonempty
      rw [textLines]
      by_cases newline : byte = 10
      · rw [if_pos newline, split, unlines_two, ← split, joined, newline]
        exact ⟨rfl, nofun⟩
      · rw [if_neg newline, split, List.modifyHead_cons, unlines_cons, ← split, joined]
        exact ⟨rfl, nofun⟩

theorem textLines_plain (text : Bytes) : ∀ line ∈ textLines text, (10 : UInt8) ∉ line := by
  induction text with
  | nil =>
      intro line member
      rw [List.mem_singleton.mp member]
      exact List.not_mem_nil
  | cons byte rest ih =>
      rw [textLines]
      by_cases newline : byte = 10
      · rw [if_pos newline]
        exact List.forall_mem_cons.mpr ⟨List.not_mem_nil, ih⟩
      · rw [if_neg newline]
        obtain ⟨line, lines, split⟩ := List.exists_cons_of_ne_nil (unlines_textLines rest).2
        rw [split, List.modifyHead_cons]
        rw [split, List.forall_mem_cons] at ih
        refine List.forall_mem_cons.mpr ⟨?_, ih.2⟩
        rw [List.mem_cons, not_or]
        exact ⟨Ne.symm newline, ih.1⟩

theorem textLines_length (text : Bytes) : (textLines text).length ≤ text.length + 1 := by
  induction text with
  | nil => exact le_rfl
  | cons byte rest ih =>
      rw [textLines]
      split
      · exact Nat.succ_le_succ ih
      · rw [List.length_modifyHead]
        exact Nat.le_succ_of_le ih

theorem textLines_noNull (text : Bytes) (noNull : (0 : UInt8) ∉ text) :
    ∀ line ∈ textLines text, (0 : UInt8) ∉ line := by
  induction text with
  | nil =>
      intro line member
      rw [List.mem_singleton.mp member]
      exact List.not_mem_nil
  | cons byte rest ih =>
      rw [List.mem_cons, not_or] at noNull
      have isFree := ih noNull.2
      rw [textLines]
      split
      · exact List.forall_mem_cons.mpr ⟨List.not_mem_nil, isFree⟩
      · obtain ⟨line, lines, split⟩ := List.exists_cons_of_ne_nil (unlines_textLines rest).2
        rw [split, List.forall_mem_cons] at isFree
        rw [split, List.modifyHead_cons]
        refine List.forall_mem_cons.mpr ⟨?_, isFree.2⟩
        rw [List.mem_cons, not_or]
        exact ⟨noNull.1, isFree.1⟩

end Scans

section Values

variable {text value line front back : Bytes} {byte : UInt8}

/-- A text that has no whitespace around it. -/
structure Tight (text : Bytes) : Prop where
  left : text.dropWhile (isSpace ·) = text
  right : text.rdropWhile (isSpace ·) = text
  some : ∃ byte ∈ text, ¬ isSpace byte

theorem not_isBlank_iff : ¬ IsBlank text ↔ ∃ byte ∈ text, ¬ isSpace byte := by
  rw [IsBlank]
  push Not
  rfl

theorem Tight.trimmed (tight : Tight text) : trimmed text = text := by
  rw [Subr.trimmed, tight.left, tight.right]

theorem rdropWhile_append (front : Bytes) (some : ∃ byte ∈ back, ¬ isSpace byte) :
    (front ++ back).rdropWhile (isSpace ·) = front ++ back.rdropWhile (isSpace ·) := by
  obtain ⟨byte, member, other⟩ := some
  have left : back.reverse.dropWhile (isSpace ·) ≠ [] := by
    intro empty
    have space := List.dropWhile_eq_nil_iff.mp empty byte (List.mem_reverse.mpr member)
    exact other (of_decide_eq_true space)
  rw [List.rdropWhile, List.rdropWhile, List.reverse_append, List.dropWhile_append,
    if_neg (by rw [List.isEmpty_iff]; exact left), List.reverse_append, List.reverse_reverse]

theorem dropWhile_blank (blank : IsBlank front) (other : ¬ isSpace byte) (back : Bytes) :
    (front ++ byte :: back).dropWhile (isSpace ·) = byte :: back := by
  have spaces : ∀ byte ∈ front, decide (isSpace byte) = true :=
    fun byte member => decide_eq_true (blank byte member)
  rw [List.dropWhile_append_of_pos spaces, List.dropWhile_cons,
    if_neg (by rw [decide_eq_true_eq]; exact other)]

theorem trimmed_split (blank : IsBlank front) (other : ¬ isSpace byte) (back : Bytes) :
    trimmed (front ++ byte :: back) = (byte :: back).rdropWhile (isSpace ·) := by
  rw [trimmed, dropWhile_blank blank other]

theorem tight_trimmed (some : ¬ IsBlank text) : Tight (trimmed text) := by
  obtain blank | ⟨front, byte, back, rfl, blank, other⟩ := isBlank_or_split text
  · exact absurd blank some
  · have kept : ∃ rest, (byte :: back).rdropWhile (isSpace ·) = byte :: rest := by
      obtain ⟨dropped, joined⟩ := List.rdropWhile_prefix (isSpace ·) (l := byte :: back)
      cases left : (byte :: back).rdropWhile (isSpace ·) with
      | nil =>
          have spaces := List.rdropWhile_eq_nil_iff.mp left byte List.mem_cons_self
          exact absurd (of_decide_eq_true spaces) other
      | cons first rest =>
          rw [left, List.cons_append] at joined
          exact ⟨rest, by rw [(List.cons.inj joined).1]⟩
    obtain ⟨rest, isKept⟩ := kept
    rw [trimmed_split blank other]
    refine ⟨?_, List.rdropWhile_idempotent _ _, ?_⟩
    · rw [isKept, List.dropWhile_cons, if_neg (by rw [decide_eq_true_eq]; exact other)]
    · rw [isKept]
      exact ⟨byte, List.mem_cons_self, other⟩

theorem tight_append (tight : Tight value) (tight' : Tight text) : Tight (value ++ 32 :: text) where
  left := by
    rw [List.dropWhile_append, tight.left, if_neg]
    rw [List.isEmpty_iff]
    rintro rfl
    obtain ⟨_, member, _⟩ := tight.some
    cases member
  right := by
    obtain ⟨byte, member, other⟩ := tight'.some
    rw [List.append_cons, rdropWhile_append _ ⟨byte, member, other⟩, tight'.right]
  some := by
    obtain ⟨byte, member, other⟩ := tight.some
    exact ⟨byte, List.mem_append_left _ member, other⟩

theorem mem_of_mem_trimmed {byte : UInt8} (member : byte ∈ trimmed text) : byte ∈ text := by
  rw [trimmed] at member
  exact (List.dropWhile_sublist _).subset ((List.rdropWhile_prefix _ _).subset member)

theorem stripWhitespace_text (some : ¬ IsBlank text) : stripWhitespace text = .ok (trimmed text) :=
  if_pos (not_isBlank_iff.mp some)

theorem stripWhitespace_blank (blank : IsBlank text) :
    stripWhitespace text = .error SvnError.undefinedBehaviour :=
  if_neg fun some => not_isBlank_iff.mpr some blank

/-- What a continuation line adds to a value. -/
theorem stripWhitespace_continuation (tight : Tight value) (blank : IsBlank front) (other : ¬ isSpace byte) :
    stripWhitespace (value ++ [32] ++ byte :: back) = .ok (value ++ 32 :: trimmed (front ++ byte :: back)) := by
  have some : ∃ byte' ∈ byte :: back, ¬ isSpace byte' := ⟨byte, List.mem_cons_self, other⟩
  have nonempty : value ≠ [] := by
    rintro rfl
    obtain ⟨_, member, _⟩ := tight.some
    cases member
  rw [stripWhitespace, if_pos, trimmed, trimmed_split blank other, List.append_assoc, List.dropWhile_append,
    tight.left, if_neg (by rw [List.isEmpty_iff]; exact nonempty), ← List.append_assoc,
    rdropWhile_append _ some, List.append_assoc]
  · rfl
  · exact ⟨byte, List.mem_append_right _ List.mem_cons_self, other⟩

theorem cString_plain (plain : (0 : UInt8) ∉ text) : cString text = text := by
  rw [cString, List.takeWhile_eq_self_iff]
  intro byte member
  rw [decide_eq_true_eq]
  rintro rfl
  exact plain member

end Values

section Rounds

/-- What the loop does after a routine. -/
def finish (fuel : Nat) (parsed : Parsed) : Except SvnError SvnConfig :=
  if parsed.ch = none then .ok parsed.ctx.cfg else parseLoop fuel parsed.ctx parsed.rest

/-- The rest of a value after one of its lines. -/
def resume (ctx : ParseContext) (value : Bytes) (lines : List Bytes) : Except SvnError Parsed :=
  if lineEnd lines = none then .ok ⟨ctx.set value, none, unlines lines⟩
  else parseContinuations ctx value (unlines lines)

theorem lineEnd_cons (line : Bytes) (lines : List Bytes) : lineEnd (line :: lines) = some 10 :=
  if_neg (List.cons_ne_nil line lines)

theorem finish_cons (fuel : Nat) (ctx : ParseContext) (line : Bytes) (lines : List Bytes) :
    finish (fuel + 1) ⟨ctx, lineEnd (line :: lines), unlines (line :: lines)⟩ =
      parseItem ctx (unlines (line :: lines)) >>= finish fuel := by
  rw [finish, lineEnd_cons]
  rfl

variable {ctx : ParseContext} {line front back value : Bytes} {byte : UInt8} {lines : List Bytes}

theorem parseItem_blank (blank : IsBlank line) (plain : (10 : UInt8) ∉ line) (ctx : ParseContext)
    (lines : List Bytes) : ∃ ctx', (ctx' = ctx ∨ ctx' = ctx.next) ∧
      parseItem ctx (unlines (line :: lines)) = .ok ⟨ctx', lineEnd lines, unlines lines⟩ := by
  rw [parseItem, skipWhitespace_blank blank plain]
  cases lines with
  | nil => exact ⟨ctx, .inl rfl, rfl⟩
  | cons next lines => exact ⟨ctx.next, .inr rfl, rfl⟩

theorem parseItem_indented (blank : IsBlank front) (plain : (10 : UInt8) ∉ front) (indented : front ≠ [])
    (text : ¬ isSpace byte) (ctx : ParseContext) (back : Bytes) (lines : List Bytes) :
    ∃ problem, parseItem ctx (unlines ((front ++ byte :: back) :: lines)) =
      .error (malformed ctx problem) := by
  have other : byte ≠ 10 := by
    rintro rfl
    exact text (by decide)
  have count : front.length ≠ 0 := fun empty => indented (List.length_eq_zero_iff.mp empty)
  rw [parseItem, skipWhitespace_text blank plain text]
  simp only [if_neg count, if_neg other, if_pos count]
  split_ifs
  all_goals exact ⟨_, rfl⟩

theorem parseItem_comment (plain : (10 : UInt8) ∉ back) (ctx : ParseContext) (lines : List Bytes) :
    parseItem ctx (unlines ((35 :: back) :: lines)) = .ok ⟨ctx, lineEnd lines, unlines lines⟩ := by
  rw [parseItem, skipWhitespace_first (by decide : ¬ isSpace 35)]
  simp only [List.length_nil, if_true, skipToEoln_line plain]
  rfl

end Rounds

section Agreement

def Reading.Named (reading : Reading) : Prop :=
  ∀ definition ∈ reading.definitions, definition.sectionName ≠ []

/-- An option has no name, or nothing stands behind its separator. -/
structure Trouble (reading : Reading) (line : Bytes) : Prop where
  text : ¬ IsBlank line
  firstColumn : ¬ StartsWithSpace line
  noComment : line.head? ≠ some 35
  noHeader : line.head? ≠ some 91
  inSection : reading.sectionName.getD [] ≠ []
  separated : optionName line ≠ line
  missing : optionName line = [] ∨ IsBlank (optionValue line)

/-- There is no trouble up to the first line that breaks the syntax or stands in a section without a
name. -/
def Untroubled : Reading → List Bytes → Prop
  | _, [] => True
  | reading, line :: lines =>
      ¬ Trouble reading line ∧ ∀ next, readLine reading line = some next → next.Named → Untroubled next lines

/-- How the result of the parser fits the meaning of the lines. -/
inductive Agrees (cfg : SvnConfig) (reading : Reading) (lines : List Bytes) : Except SvnError SvnConfig → Prop where
  | accepted {parsed : SvnConfig} {final : Reading} (clean : Untroubled reading lines)
      (read : readLines reading lines = some final) (named : final.Named)
      (same : ∀ sectionName name, svnConfigGet parsed sectionName name =
        (lastValue final.definitions sectionName name).or (svnConfigGet cfg sectionName name)) :
      Agrees cfg reading lines (.ok parsed)
  | rejected {error : SvnError} (code : error.code = .malformedFile) (clean : Untroubled reading lines)
      (broken : ∀ final, readLines reading lines = some final → ¬ final.Named) :
      Agrees cfg reading lines (.error error)
  | troubled (trouble : ¬ Untroubled reading lines) :
      Agrees cfg reading lines (.error SvnError.undefinedBehaviour)

variable {cfg : SvnConfig} {reading next : Reading} {line : Bytes} {lines : List Bytes}
  {result : Except SvnError SvnConfig}

theorem Agrees.step (clean : ¬ Trouble reading line) (read : readLine reading line = some next)
    (named : next.Named) (agrees : Agrees cfg next lines result) : Agrees cfg reading (line :: lines) result := by
  have reads : readLines reading (line :: lines) = readLines next lines := by
    rw [readLines, read, Option.bind_some]
  have untroubled : Untroubled reading (line :: lines) ↔ Untroubled next lines := by
    rw [Untroubled, read]
    constructor
    · exact fun untroubled => untroubled.2 next rfl named
    · intro untroubled
      refine ⟨clean, fun other isOther _ => ?_⟩
      rw [← Option.some.inj isOther]
      exact untroubled
  cases agrees with
  | accepted later isRead isNamed same =>
      exact .accepted (untroubled.mpr later) (reads.trans isRead) isNamed same
  | rejected code later broken => exact .rejected code (untroubled.mpr later) (reads ▸ broken)
  | troubled trouble => exact .troubled fun later => trouble (untroubled.mp later)

theorem Agrees.reject {error : SvnError} (clean : ¬ Trouble reading line)
    (read : readLine reading line = none) (code : error.code = .malformedFile) :
    Agrees cfg reading (line :: lines) (.error error) := by
  refine .rejected code ⟨clean, fun next isNext => ?_⟩ fun final isFinal => ?_
  · rw [read] at isNext
    cases isNext
  · rw [readLines, read] at isFinal
    cases isFinal

/-- The section of a definition stays in what is read later. -/
theorem readLine_sections (read : readLine reading line = some next) (named : next.Named) :
    reading.Named := by
  intro definition member
  rw [readLine] at read
  split at read
  · cases read
    exact named definition member
  · split at read
    · rw [readContinuation] at read
      split at read
      case h_1 last earlier isOpen isLast =>
        cases read
        rw [isLast] at member
        obtain rfl | isEarlier := List.mem_cons.mp member
        · exact named ⟨definition.sectionName, definition.name, definition.first, definition.more ++ [line]⟩
            List.mem_cons_self
        · exact named definition (List.mem_cons_of_mem _ isEarlier)
      case h_2 => cases read
    · split at read
      · cases read
        exact named definition member
      · split at read
        · rw [readHeader] at read
          split at read
          · cases read
            exact named definition member
          · cases read
        · rw [readOption] at read
          split at read
          · cases read
          · split at read
            · cases read
            · cases read
              exact named definition (List.mem_cons_of_mem _ member)

theorem readLines_sections {final : Reading} (lines : List Bytes) :
    ∀ reading, readLines reading lines = some final → final.Named → reading.Named := by
  induction lines with
  | nil =>
      intro reading read named
      cases read
      exact named
  | cons line lines ih =>
      intro reading read named
      obtain ⟨next, isNext, later⟩ := Option.bind_eq_some_iff.mp read
      exact readLine_sections isNext (ih next later named)

/-- An option in a section without a name is not accepted by the parser. -/
theorem Agrees.unnamed {error : SvnError} (clean : ¬ Trouble reading line)
    (read : ∀ next, readLine reading line = some next → ¬ next.Named) (code : error.code = .malformedFile) :
    Agrees cfg reading (line :: lines) (.error error) := by
  refine .rejected code ⟨clean, fun next isNext named => absurd named (read next isNext)⟩ ?_
  intro final isFinal named
  obtain ⟨next, isNext, later⟩ := Option.bind_eq_some_iff.mp isFinal
  exact read next isNext (readLines_sections lines next later named)

end Agreement

section Simulation

variable {cfg : SvnConfig} {reading : Reading} {ctx : ParseContext} {value line front back : Bytes} {byte : UInt8}
  {lines : List Bytes} {last : Definition} {earlier : List Definition}

/-- The context of the parser between two items. -/
structure Matches (cfg : SvnConfig) (reading : Reading) (ctx : ParseContext) : Prop where
  sectionName : ctx.sectionName = reading.sectionName.getD []
  values : ∀ sectionName name, svnConfigGet ctx.cfg sectionName name =
    (lastValue reading.definitions sectionName name).or (svnConfigGet cfg sectionName name)
  named : reading.Named
  plain : (0 : UInt8) ∉ ctx.sectionName

/-- The context of the parser after a line of a value, which is not stored yet. -/
structure Opened (cfg : SvnConfig) (reading : Reading) (last : Definition) (earlier : List Definition)
    (ctx : ParseContext) (value : Bytes) : Prop where
  opened : reading.opened = true
  definitions : reading.definitions = last :: earlier
  sectionName : ctx.sectionName = reading.sectionName.getD []
  lastSection : last.sectionName = ctx.sectionName
  lastName : last.name = ctx.optionName
  joined : (trimmed last.first ++ last.more.flatMap fun line => 32 :: trimmed line) = value
  tight : Tight value
  values : ∀ sectionName name, svnConfigGet ctx.cfg sectionName name =
    (lastValue earlier sectionName name).or (svnConfigGet cfg sectionName name)
  named : reading.Named
  plainSection : (0 : UInt8) ∉ ctx.sectionName
  plainName : (0 : UInt8) ∉ ctx.optionName
  plainValue : (0 : UInt8) ∉ value

theorem Matches.closed (isMatch : Matches cfg reading ctx) : Matches cfg reading.closed ctx :=
  ⟨isMatch.sectionName, isMatch.values, isMatch.named, isMatch.plain⟩

theorem Matches.next (isMatch : Matches cfg reading ctx) : Matches cfg reading ctx.next :=
  ⟨isMatch.sectionName, isMatch.values, isMatch.named, isMatch.plain⟩

theorem Opened.next (isOpen : Opened cfg reading last earlier ctx value) :
    Opened cfg reading last earlier ctx.next value where
  opened := isOpen.opened
  definitions := isOpen.definitions
  sectionName := isOpen.sectionName
  lastSection := isOpen.lastSection
  lastName := isOpen.lastName
  joined := isOpen.joined
  tight := isOpen.tight
  values := isOpen.values
  named := isOpen.named
  plainSection := isOpen.plainSection
  plainName := isOpen.plainName
  plainValue := isOpen.plainValue

/-- Storing the value closes the option. -/
theorem Opened.set (isOpen : Opened cfg reading last earlier ctx value) :
    Matches cfg reading.closed (ctx.set value) where
  sectionName := isOpen.sectionName
  values := by
    intro sectionName name
    have isValue : last.value = value := by rw [Definition.value, isOpen.joined, isOpen.tight.trimmed]
    rw [ParseContext.set, svnConfigGet_set, cString_plain isOpen.plainSection,
      cString_plain isOpen.plainName, cString_plain isOpen.plainValue, Reading.closed, isOpen.definitions,
      lastValue, List.find?_cons, isOpen.lastSection, isOpen.lastName]
    by_cases same : makeHashKey sectionName = makeHashKey ctx.sectionName ∧
        makeHashKey name = makeHashKey ctx.optionName
    · rw [if_pos same, decide_eq_true same, isValue.symm]
      rfl
    · rw [if_neg same, decide_eq_false same]
      exact isOpen.values sectionName name
  named := isOpen.named
  plain := isOpen.plainSection

/-- A continuation line goes to the open definition. -/
theorem Opened.continuation (isOpen : Opened cfg reading last earlier ctx value) (some : ¬ IsBlank line)
    (plain : (0 : UInt8) ∉ line) :
    readContinuation reading line = .some { reading with
      definitions := { last with more := last.more ++ [line] } :: earlier } ∧
    Opened cfg { reading with definitions := { last with more := last.more ++ [line] } :: earlier }
      { last with more := last.more ++ [line] } earlier ctx (value ++ 32 :: trimmed line) := by
  refine ⟨?_, ?_⟩
  · rw [readContinuation, isOpen.opened, isOpen.definitions]
  · refine ⟨isOpen.opened, rfl, isOpen.sectionName, isOpen.lastSection, isOpen.lastName, ?_,
      tight_append isOpen.tight (tight_trimmed some), isOpen.values, ?_, isOpen.plainSection,
      isOpen.plainName, ?_⟩
    · rw [List.flatMap_append, List.flatMap_singleton, ← List.append_assoc, isOpen.joined]
    · have named := isOpen.named
      rw [Reading.Named, isOpen.definitions, List.forall_mem_cons] at named
      exact List.forall_mem_cons.mpr named
    · rw [List.mem_append, List.mem_cons, not_or, not_or]
      exact ⟨isOpen.plainValue, by decide, fun member => plain (mem_of_mem_trimmed member)⟩

/-- What follows an item is read with the meaning that the lines so far have. -/
def Follows (cfg : SvnConfig) (lines : List Bytes) : Prop :=
  ∀ fuel, lines.length ≤ fuel → ∀ reading ctx, Matches cfg reading ctx → reading.opened = false →
    Agrees cfg reading lines (finish fuel ⟨ctx, lineEnd lines, unlines lines⟩)

/-- What follows a line of a value is read with the meaning that the lines so far have. -/
def Continues (cfg : SvnConfig) (lines : List Bytes) : Prop :=
  ∀ fuel, lines.length ≤ fuel → ∀ reading last earlier ctx value, Opened cfg reading last earlier ctx value →
    Agrees cfg reading lines (resume ctx value lines >>= finish fuel)

theorem startsWithSpace_split (blank : IsBlank front) (indented : front ≠ []) (rest : Bytes) :
    StartsWithSpace (front ++ rest) := by
  cases front with
  | nil => exact absurd rfl indented
  | cons first front => exact ⟨first, rfl, blank first List.mem_cons_self⟩

theorem not_isBlank_split (front back : Bytes) (text : ¬ isSpace byte) : ¬ IsBlank (front ++ byte :: back) :=
  not_isBlank_iff.mpr ⟨byte, List.mem_append_right _ List.mem_cons_self, text⟩

theorem not_startsWithSpace_cons (text : ¬ isSpace byte) : ¬ StartsWithSpace (byte :: back) := by
  rintro ⟨_, same, space⟩
  cases same
  exact text space

/-- Whether a value is open does not matter for a line that begins in the first column. -/
theorem Agrees.of_closed {result : Except SvnError SvnConfig} (text : ¬ IsBlank line)
    (firstColumn : ¬ StartsWithSpace line) (agrees : Agrees cfg reading.closed (line :: lines) result) :
    Agrees cfg reading (line :: lines) result := by
  have sameLine : readLine reading.closed line = readLine reading line := by
    rw [readLine, readLine, if_neg text, if_neg text, if_neg firstColumn, if_neg firstColumn]
    rfl
  have sameReads : readLines reading.closed (line :: lines) = readLines reading (line :: lines) := by
    rw [readLines, readLines, sameLine]
  have sameClean : Untroubled reading.closed (line :: lines) ↔ Untroubled reading (line :: lines) := by
    have sameTrouble : Trouble reading.closed line ↔ Trouble reading line :=
      ⟨fun trouble => ⟨trouble.1, trouble.2, trouble.3, trouble.4, trouble.5, trouble.6, trouble.7⟩,
        fun trouble => ⟨trouble.1, trouble.2, trouble.3, trouble.4, trouble.5, trouble.6, trouble.7⟩⟩
    rw [Untroubled, Untroubled, sameLine, sameTrouble]
  cases agrees with
  | accepted clean read named same =>
      exact .accepted (sameClean.mp clean) (sameReads ▸ read) named same
  | rejected code clean broken => exact .rejected code (sameClean.mp clean) (sameReads ▸ broken)
  | troubled trouble => exact .troubled fun clean => trouble (sameClean.mpr clean)

theorem continues_blank (blank : IsBlank line) (plain : (10 : UInt8) ∉ line) (follows : Follows cfg lines) :
    ∀ fuel, lines.length ≤ fuel → ∀ reading last earlier ctx value,
      Opened cfg reading last earlier ctx value →
        Agrees cfg reading (line :: lines) (parseContinuations ctx value (unlines (line :: lines)) >>= finish fuel) := by
  intro fuel enough reading last earlier ctx value isOpen
  have clean : ¬ Trouble reading line := fun trouble => trouble.text blank
  have read : readLine reading line = some reading.closed := by rw [readLine, if_pos blank]
  have skipped : ∃ ctx', Matches cfg reading.closed ctx' ∧
      parseContinuations ctx value (unlines (line :: lines)) = .ok ⟨ctx', lineEnd lines, unlines lines⟩ := by
    rw [parseContinuations_eq, skipWhitespace_blank blank plain]
    cases lines with
    | nil => exact ⟨_, isOpen.next.set, rfl⟩
    | cons after lines => exact ⟨_, isOpen.next.next.set, rfl⟩
  obtain ⟨ctx', isMatch, result⟩ := skipped
  rw [result, ok_bind]
  exact Agrees.step clean read isMatch.named (follows fuel enough _ _ isMatch rfl)

theorem continues_firstColumn (text : ¬ isSpace byte) (follows : Follows cfg ((byte :: back) :: lines)) :
    ∀ fuel, lines.length + 1 ≤ fuel → ∀ reading last earlier ctx value,
      Opened cfg reading last earlier ctx value →
        Agrees cfg reading ((byte :: back) :: lines)
          (parseContinuations ctx value (unlines ((byte :: back) :: lines)) >>= finish fuel) := by
  intro fuel enough reading last earlier ctx value isOpen
  have other : byte ≠ 10 := by
    rintro rfl
    exact text (by decide)
  have result : parseContinuations ctx value (unlines ((byte :: back) :: lines)) =
      .ok ⟨ctx.next.set value, some byte, unlines ((byte :: back) :: lines)⟩ := by
    rw [parseContinuations_eq, skipWhitespace_first text, unlines_cons]
    simp only [if_neg other, List.length_nil, if_true]
  have again : finish fuel ⟨ctx.next.set value, some byte, unlines ((byte :: back) :: lines)⟩ =
      finish fuel ⟨ctx.next.set value, lineEnd ((byte :: back) :: lines), unlines ((byte :: back) :: lines)⟩ := by
    rw [finish, finish, lineEnd_cons]
    rfl
  rw [result, ok_bind, again]
  exact (follows fuel enough _ _ isOpen.next.set rfl).of_closed (not_isBlank_split [] back text)
    (not_startsWithSpace_cons text)

theorem continues_continuation (blank : IsBlank front) (indented : front ≠ []) (text : ¬ isSpace byte)
    (plain : (10 : UInt8) ∉ front ++ byte :: back) (noNull : (0 : UInt8) ∉ front ++ byte :: back)
    (continues : Continues cfg lines) :
    ∀ fuel, lines.length ≤ fuel → ∀ reading last earlier ctx value,
      Opened cfg reading last earlier ctx value →
        Agrees cfg reading ((front ++ byte :: back) :: lines)
          (parseContinuations ctx value (unlines ((front ++ byte :: back) :: lines)) >>= finish fuel) := by
  intro fuel enough reading last earlier ctx value isOpen
  rw [List.mem_append, not_or] at plain
  have other : byte ≠ 10 := by
    rintro rfl
    exact text (by decide)
  have count : front.length ≠ 0 := fun empty => indented (List.length_eq_zero_iff.mp empty)
  have some := not_isBlank_split front back text
  obtain ⟨isRead, isOpen'⟩ := isOpen.next.continuation some noNull
  have read : readLine reading (front ++ byte :: back) = .some { reading with
      definitions := { last with more := last.more ++ [front ++ byte :: back] } :: earlier } := by
    rw [readLine, if_neg some, if_pos (startsWithSpace_split blank indented _), isRead]
  have clean : ¬ Trouble reading (front ++ byte :: back) :=
    fun trouble => trouble.firstColumn (startsWithSpace_split blank indented _)
  have result : parseContinuations ctx value (unlines ((front ++ byte :: back) :: lines)) =
      resume ctx.next (value ++ 32 :: trimmed (front ++ byte :: back)) lines := by
    rw [parseContinuations_eq, skipWhitespace_text blank plain.1 text]
    simp only [if_neg other, if_neg count]
    rw [← unlines_cons, skipToEoln_line plain.2, stripWhitespace_continuation isOpen.tight blank text, ok_bind]
    rfl
  rw [result]
  exact Agrees.step clean read isOpen'.named (continues fuel enough _ _ _ _ _ isOpen')

/-- A header is read up to its bracket. -/
theorem parseItem_header (plain : (10 : UInt8) ∉ back) (ctx : ParseContext) (lines : List Bytes) :
    if 93 ∈ back then
      ∃ count, parseItem ctx (unlines ((91 :: back) :: lines)) =
        .ok ⟨{ ctx with sectionName := back.takeWhile (· ≠ 93), line := count }, lineEnd lines, unlines lines⟩
    else ∃ problem, parseItem ctx (unlines ((91 :: back) :: lines)) = .error (malformed ctx problem) := by
  have item : parseItem ctx (unlines ((91 :: back) :: lines)) =
      parseSectionName ctx (unlines (back :: lines)) := by
    rw [parseItem, skipWhitespace_first (by decide : ¬ isSpace 91)]
    rfl
  split
  case isTrue bracket =>
    have differs : back.takeWhile (· ≠ 93) ≠ back := by
      intro same
      have kept := List.takeWhile_eq_self_iff.mp same 93 bracket
      simp at kept
    obtain ⟨stop, stops, split⟩ := split_takeWhile back differs
    obtain rfl : stop = 93 := by simpa using stops
    have isPlain : (10 : UInt8) ∉ back.takeWhile (· ≠ 93) := fun member => plain ((List.takeWhile_sublist _).subset member)
    have isPlainRest : (10 : UInt8) ∉ back.drop ((back.takeWhile (· ≠ 93)).length + 1) :=
      fun member => plain (List.mem_of_mem_drop member)
    have scanned : readSectionName (unlines (back :: lines)) =
        ⟨back.takeWhile (· ≠ 93), some 93,
          unlines (back.drop ((back.takeWhile (· ≠ 93)).length + 1) :: lines)⟩ := by
      conv_lhs => rw [split]
      apply readUntil_inside
      · intro byte member
        rw [decide_eq_false_iff_not, not_or]
        constructor
        · have kept := List.mem_takeWhile_imp member
          simpa using kept
        · rintro rfl
          exact isPlain member
      · decide
    refine ⟨if lineEnd lines = none then ctx.line else ctx.line + 1, ?_⟩
    rw [item, parseSectionName, scanned, if_neg (not_not.mpr rfl), skipToEoln_line isPlainRest]
  case isFalse noBracket =>
    have scanned : readSectionName (unlines (back :: lines)) = ⟨back, lineEnd lines, unlines lines⟩ := by
      apply readUntil_line (by decide)
      intro byte member
      rw [decide_eq_false_iff_not, not_or]
      constructor
      · rintro rfl
        exact noBracket member
      · rintro rfl
        exact plain member
    refine ⟨"Section header must end with ']'", ?_⟩
    rw [item, parseSectionName, scanned, if_pos]
    cases lines with
    | nil =>
        show (Option.none : Option UInt8) ≠ Option.some 93
        decide
    | cons next lines =>
        rw [lineEnd_cons]
        show (Option.some (10 : UInt8)) ≠ Option.some 93
        decide

theorem follows_header (plain : (10 : UInt8) ∉ back) (noNull : (0 : UInt8) ∉ back) (follows : Follows cfg lines)
    (fuel : Nat) (enough : lines.length ≤ fuel) (isMatch : Matches cfg reading ctx) :
    Agrees cfg reading ((91 :: back) :: lines)
      (parseItem ctx (unlines ((91 :: back) :: lines)) >>= finish fuel) := by
  have text : ¬ isSpace 91 := by decide
  have clean : ¬ Trouble reading (91 :: back) := fun trouble => trouble.noHeader rfl
  have some : ¬ IsBlank (91 :: back) := not_isBlank_split [] back text
  have read : readLine reading (91 :: back) = readHeader reading (91 :: back) := by
    rw [readLine, if_neg some, if_neg (not_startsWithSpace_cons text), if_neg (by simp)]
    exact if_pos rfl
  have item := parseItem_header plain ctx lines
  by_cases bracket : 93 ∈ back
  · rw [if_pos bracket] at item
    obtain ⟨count, result⟩ := item
    have isRead : readLine reading (91 :: back) =
        .some ⟨.some (back.takeWhile (· ≠ 93)), false, reading.definitions⟩ := by
      rw [read, readHeader, if_pos (List.mem_cons_of_mem _ bracket)]
      rfl
    have isMatch' : Matches cfg ⟨.some (back.takeWhile (· ≠ 93)), false, reading.definitions⟩
        { ctx with sectionName := back.takeWhile (· ≠ 93), line := count } :=
      ⟨rfl, isMatch.values, isMatch.named, fun member => noNull ((List.takeWhile_sublist _).subset member)⟩
    rw [result, ok_bind]
    exact Agrees.step clean isRead isMatch.named (follows fuel enough _ _ isMatch' rfl)
  · rw [if_neg bracket] at item
    obtain ⟨problem, result⟩ := item
    rw [result, error_bind]
    refine Agrees.reject clean ?_ rfl
    rw [read, readHeader, if_neg]
    rw [List.mem_cons, not_or]
    exact ⟨by decide, bracket⟩

theorem parseItem_option (text : ¬ isSpace byte) (noHeader : byte ≠ 91) (noComment : byte ≠ 35)
    (inSection : ctx.sectionName ≠ []) (lines : List Bytes) :
    parseItem ctx (unlines ((byte :: back) :: lines)) = parseOption ctx byte (unlines (back :: lines)) := by
  have other : byte ≠ 10 := by
    rintro rfl
    exact text (by decide)
  rw [parseItem, skipWhitespace_first text]
  simp only [if_neg noHeader, if_neg noComment, if_neg other, if_neg inSection, List.length_nil, ne_eq,
    not_true_eq_false, if_false]

theorem readOptionName_line (plain : (10 : UInt8) ∉ line) (lines : List Bytes) :
    (optionName line = line → readOptionName (unlines (line :: lines)) = ⟨line, lineEnd lines, unlines lines⟩) ∧
      (optionName line ≠ line → ∃ stop, (stop = 58 ∨ stop = 61) ∧
        readOptionName (unlines (line :: lines)) =
          ⟨optionName line, some stop, unlines (optionValue line :: lines)⟩) := by
  have free : ∀ byte ∈ optionName line, decide (byte = 58 ∨ byte = 61 ∨ byte = 10) = false := by
    intro byte member
    have isKept := List.mem_takeWhile_imp member
    have kept := of_decide_eq_true isKept
    rw [decide_eq_false_iff_not, not_or, not_or]
    refine ⟨kept.1, kept.2, ?_⟩
    rintro rfl
    exact plain ((List.takeWhile_sublist _).subset member)
  constructor
  · intro same
    rw [same] at free
    exact readUntil_line (by decide) free lines
  · intro differs
    obtain ⟨stop, stops, split⟩ := split_takeWhile line differs
    have isStop : stop = 58 ∨ stop = 61 := by
      rw [decide_eq_false_iff_not] at stops
      tauto
    refine ⟨stop, isStop, ?_⟩
    conv_lhs => rw [split]
    exact readUntil_inside free (by rcases isStop with rfl | rfl <;> decide)

theorem follows_blank (blank : IsBlank line) (plain : (10 : UInt8) ∉ line) (follows : Follows cfg lines)
    (fuel : Nat) (enough : lines.length ≤ fuel) (isMatch : Matches cfg reading ctx) :
    Agrees cfg reading (line :: lines) (parseItem ctx (unlines (line :: lines)) >>= finish fuel) := by
  have read : readLine reading line = some reading.closed := by rw [readLine, if_pos blank]
  obtain ⟨ctx', isContext, result⟩ := parseItem_blank blank plain ctx lines
  have isMatch' : Matches cfg reading.closed ctx' := by
    obtain rfl | rfl := isContext
    · exact isMatch.closed
    · exact isMatch.closed.next
  rw [result, ok_bind]
  exact Agrees.step (fun trouble => trouble.text blank) read isMatch'.named
    (follows fuel enough _ _ isMatch' rfl)

theorem follows_indented (blank : IsBlank front) (indented : front ≠ []) (text : ¬ isSpace byte)
    (plain : (10 : UInt8) ∉ front ++ byte :: back) (fuel : Nat) (ctx : ParseContext)
    (isClosed : reading.opened = false) :
    Agrees cfg reading ((front ++ byte :: back) :: lines)
      (parseItem ctx (unlines ((front ++ byte :: back) :: lines)) >>= finish fuel) := by
  rw [List.mem_append, not_or] at plain
  have startsWithSpace := startsWithSpace_split blank indented (byte :: back)
  obtain ⟨problem, result⟩ := parseItem_indented blank plain.1 indented text ctx back lines
  rw [result, error_bind]
  refine Agrees.reject (fun trouble => trouble.firstColumn startsWithSpace) ?_ rfl
  rw [readLine, if_neg (not_isBlank_split front back text), if_pos startsWithSpace, readContinuation, isClosed]

theorem follows_comment (plain : (10 : UInt8) ∉ back) (follows : Follows cfg lines) (fuel : Nat)
    (enough : lines.length ≤ fuel) (isMatch : Matches cfg reading ctx) :
    Agrees cfg reading ((35 :: back) :: lines)
      (parseItem ctx (unlines ((35 :: back) :: lines)) >>= finish fuel) := by
  have text : ¬ isSpace 35 := by decide
  have read : readLine reading (35 :: back) = some reading.closed := by
    have some : ¬ IsBlank (35 :: back) := not_isBlank_split [] back text
    rw [readLine, if_neg some, if_neg (not_startsWithSpace_cons text)]
    exact if_pos rfl
  rw [parseItem_comment plain, ok_bind]
  exact Agrees.step (fun trouble => trouble.noComment rfl) read isMatch.named
    (follows fuel enough _ _ isMatch.closed rfl)

theorem parseItem_noSection (text : ¬ isSpace byte) (noHeader : byte ≠ 91) (noComment : byte ≠ 35)
    (noSection : ctx.sectionName = []) (back : Bytes) (lines : List Bytes) :
    parseItem ctx (unlines ((byte :: back) :: lines)) = .error (malformed ctx "Section header expected") := by
  have other : byte ≠ 10 := by
    rintro rfl
    exact text (by decide)
  rw [parseItem, skipWhitespace_first text]
  simp only [if_neg noHeader, if_neg noComment, if_neg other, if_pos noSection]

/-- The two places where a buffer without text is stripped come before the continuation lines. -/
theorem parseOption_line (text : ¬ isSpace byte) (plain : (10 : UInt8) ∉ byte :: back) (ctx : ParseContext)
    (lines : List Bytes) :
    parseOption ctx byte (unlines (back :: lines)) =
      if optionName (byte :: back) = byte :: back then
        .error (malformed ctx "Option must end with ':' or '='")
      else if optionName (byte :: back) = [] ∨ IsBlank (optionValue (byte :: back)) then
        .error SvnError.undefinedBehaviour
      else
        resume { ctx with optionName := trimmed (optionName (byte :: back)) }
          (trimmed (optionValue (byte :: back))) lines := by
  rw [parseOption, ← unlines_cons]
  obtain ⟨unseparated, separated⟩ := readOptionName_line plain lines
  by_cases same : optionName (byte :: back) = byte :: back
  · rw [if_pos same, unseparated same, if_pos]
    cases lines with
    | nil =>
        show (Option.none : Option UInt8) ≠ some 58 ∧ (Option.none : Option UInt8) ≠ some 61
        decide
    | cons next lines =>
        rw [lineEnd_cons]
        show Option.some (10 : UInt8) ≠ some 58 ∧ Option.some (10 : UInt8) ≠ some 61
        decide
  · obtain ⟨stop, isStop, scanned⟩ := separated same
    have plainValue : (10 : UInt8) ∉ optionValue (byte :: back) :=
      fun member => plain (List.mem_of_mem_drop member)
    rw [if_neg same, scanned, if_neg (by rcases isStop with rfl | rfl <;> simp)]
    by_cases noName : optionName (byte :: back) = []
    · rw [if_pos (.inl noName), noName, stripWhitespace_blank (List.forall_mem_nil _), error_bind]
    · have member : byte ∈ optionName (byte :: back) := by
        rw [optionName, List.takeWhile_cons] at noName ⊢
        split at noName
        case isTrue keep =>
          rw [if_pos keep]
          exact List.mem_cons_self
        case isFalse => exact absurd rfl noName
      have hasName : ¬ IsBlank (optionName (byte :: back)) := not_isBlank_iff.mpr ⟨byte, member, text⟩
      rw [stripWhitespace_text hasName, ok_bind, parseValue, skipToEoln_line plainValue]
      by_cases blank : IsBlank (optionValue (byte :: back))
      · rw [if_pos (.inr blank), stripWhitespace_blank blank, error_bind]
      · rw [if_neg fun missing => missing.elim noName blank, stripWhitespace_text blank, ok_bind]
        rfl

theorem follows_option (text : ¬ isSpace byte) (noHeader : byte ≠ 91) (noComment : byte ≠ 35)
    (plain : (10 : UInt8) ∉ byte :: back) (noNull : (0 : UInt8) ∉ byte :: back) (continues : Continues cfg lines)
    (fuel : Nat) (enough : lines.length ≤ fuel) (isMatch : Matches cfg reading ctx) :
    Agrees cfg reading ((byte :: back) :: lines)
      (parseItem ctx (unlines ((byte :: back) :: lines)) >>= finish fuel) := by
  have some : ¬ IsBlank (byte :: back) := not_isBlank_split [] back text
  have notComment : (byte :: back).head? ≠ Option.some 35 := fun same => noComment (Option.some.inj same)
  have notHeader : (byte :: back).head? ≠ Option.some 91 := fun same => noHeader (Option.some.inj same)
  have read : readLine reading (byte :: back) = readOption reading (byte :: back) := by
    rw [readLine, if_neg some, if_neg (not_startsWithSpace_cons text), if_neg notComment, if_neg notHeader]
  by_cases noSection : ctx.sectionName = []
  · have clean : ¬ Trouble reading (byte :: back) :=
      fun trouble => trouble.inSection (isMatch.sectionName ▸ noSection)
    rw [parseItem_noSection text noHeader noComment noSection, error_bind]
    refine Agrees.unnamed clean ?_ rfl
    rw [read]
    intro next isNext named
    rw [isMatch.sectionName] at noSection
    rw [readOption] at isNext
    split at isNext
    case h_1 => cases isNext
    case h_2 sectionName isSection =>
      rw [isSection, Option.getD_some] at noSection
      split at isNext
      · cases isNext
      · cases isNext
        exact named _ List.mem_cons_self noSection
  · rw [parseItem_option text noHeader noComment noSection, parseOption_line text plain]
    have sameSection := isMatch.sectionName
    obtain ⟨sectionName, isSection⟩ : ∃ sectionName, reading.sectionName = Option.some sectionName := by
      cases isSection : reading.sectionName with
      | none =>
          rw [isSection] at sameSection
          exact absurd sameSection noSection
      | some sectionName => exact ⟨sectionName, rfl⟩
    rw [isSection, Option.getD_some] at sameSection
    by_cases unseparated : optionName (byte :: back) = byte :: back
    · rw [if_pos unseparated, error_bind]
      refine Agrees.reject (fun trouble => trouble.separated unseparated) ?_ rfl
      rw [read, readOption, isSection]
      exact if_pos (.inr unseparated)
    · rw [if_neg unseparated]
      by_cases missing : optionName (byte :: back) = [] ∨ IsBlank (optionValue (byte :: back))
      · rw [if_pos missing, error_bind]
        have inSection : reading.sectionName.getD [] ≠ [] := isMatch.sectionName ▸ noSection
        exact .troubled fun clean => clean.1
          ⟨some, not_startsWithSpace_cons text, notComment, notHeader, inSection, unseparated, missing⟩
      · rw [if_neg missing]
        rw [not_or] at missing
        have isRead : readLine reading (byte :: back) = Option.some ⟨Option.some sectionName, true,
            ⟨sectionName, trimmed (optionName (byte :: back)), optionValue (byte :: back), []⟩ ::
              reading.definitions⟩ := by
          rw [read, readOption, isSection]
          exact if_neg (not_or.mpr ⟨missing.1, unseparated⟩)
        have isOpen : Opened cfg ⟨Option.some sectionName, true,
            ⟨sectionName, trimmed (optionName (byte :: back)), optionValue (byte :: back), []⟩ ::
              reading.definitions⟩
            ⟨sectionName, trimmed (optionName (byte :: back)), optionValue (byte :: back), []⟩
            reading.definitions { ctx with optionName := trimmed (optionName (byte :: back)) }
            (trimmed (optionValue (byte :: back))) := by
          refine ⟨rfl, rfl, sameSection, sameSection.symm, rfl, List.append_nil _, tight_trimmed missing.2,
            isMatch.values, List.forall_mem_cons.mpr ⟨sameSection ▸ noSection, isMatch.named⟩, isMatch.plain,
            ?_, ?_⟩
          · exact fun member => noNull ((List.takeWhile_sublist _).subset (mem_of_mem_trimmed member))
          · exact fun member => noNull (List.mem_of_mem_drop (mem_of_mem_trimmed member))
        exact Agrees.step (fun trouble => trouble.missing.elim missing.1 missing.2) isRead isOpen.named
          (continues fuel enough _ _ _ _ _ isOpen)

theorem lines_agree (cfg : SvnConfig) (lines : List Bytes) (plain : ∀ line ∈ lines, (10 : UInt8) ∉ line)
    (noNull : ∀ line ∈ lines, (0 : UInt8) ∉ line) : Follows cfg lines ∧ Continues cfg lines := by
  induction lines with
  | nil =>
      constructor
      · intro fuel enough reading ctx isMatch isClosed
        exact .accepted trivial rfl isMatch.named isMatch.values
      · intro fuel enough reading last earlier ctx value isOpen
        exact .accepted trivial rfl isOpen.named isOpen.set.values
  | cons line lines ih =>
      rw [List.forall_mem_cons] at plain noNull
      obtain ⟨follows, continues⟩ := ih plain.2 noNull.2
      have isFollowed : Follows cfg (line :: lines) := by
        intro fuel enough reading ctx isMatch isClosed
        obtain ⟨fuel, rfl⟩ := Nat.exists_eq_add_one_of_ne_zero (Nat.ne_of_gt (Nat.zero_lt_of_lt enough))
        have enoughLater : lines.length ≤ fuel := Nat.le_of_succ_le_succ enough
        rw [finish_cons]
        obtain blank | ⟨front, byte, back, rfl, blank, text⟩ := isBlank_or_split line
        · exact follows_blank blank plain.1 follows fuel enoughLater isMatch
        · by_cases indented : front = []
          · subst indented
            rw [List.nil_append] at plain noNull ⊢
            by_cases header : byte = 91
            · subst header
              exact follows_header (fun member => plain.1 (List.mem_cons_of_mem _ member))
                (fun member => noNull.1 (List.mem_cons_of_mem _ member)) follows fuel enoughLater isMatch
            · by_cases comment : byte = 35
              · subst comment
                exact follows_comment (fun member => plain.1 (List.mem_cons_of_mem _ member)) follows fuel
                  enoughLater isMatch
              · exact follows_option text header comment plain.1 noNull.1 continues fuel enoughLater isMatch
          · exact follows_indented blank indented text plain.1 fuel ctx isClosed
      refine ⟨isFollowed, ?_⟩
      intro fuel enough reading last earlier ctx value isOpen
      rw [resume, lineEnd_cons, if_neg (Option.some_ne_none _)]
      obtain blank | ⟨front, byte, back, rfl, blank, text⟩ := isBlank_or_split line
      · exact continues_blank blank plain.1 follows fuel (Nat.le_of_succ_le enough) _ _ _ _ _ isOpen
      · by_cases indented : front = []
        · subst indented
          exact continues_firstColumn text isFollowed fuel enough _ _ _ _ _ isOpen
        · exact continues_continuation blank indented text plain.1 noNull.1 continues fuel
            (Nat.le_of_succ_le enough) _ _ _ _ _ isOpen

end Simulation

section Result

variable {cfg : SvnConfig} {lines : List Bytes} {result : Except SvnError SvnConfig}

/-- Lines that follow the syntax give every option the value of its last definition, and others are
refused. -/
def AsDescribed (cfg : SvnConfig) (lines : List Bytes) (result : Except SvnError SvnConfig) : Prop :=
  match readLines Reading.start lines with
  | some final => ∃ parsed, result = .ok parsed ∧ ∀ sectionName name,
      svnConfigGet parsed sectionName name =
        (lastValue final.definitions sectionName name).or (svnConfigGet cfg sectionName name)
  | none => ∃ error, result = .error error ∧ error.code = .malformedFile

/-- There is no trouble before the syntax is broken, and if it is never, then every option stands in a
section with a name. -/
structure Harmless (lines : List Bytes) : Prop where
  untroubled : Untroubled Reading.start lines
  named : ∀ final, readLines Reading.start lines = some final → final.Named

theorem Agrees.asDescribed_iff (agrees : Agrees cfg Reading.start lines result) :
    AsDescribed cfg lines result ↔ Harmless lines := by
  rw [AsDescribed]
  cases agrees with
  | accepted clean read named same =>
      rw [read]
      refine iff_of_true ⟨_, rfl, same⟩ ⟨clean, fun final isFinal => ?_⟩
      rw [← Option.some.inj (read.symm.trans isFinal)]
      exact named
  | rejected code clean broken =>
      cases read : readLines Reading.start lines with
      | none =>
          refine iff_of_true ⟨_, rfl, code⟩ ⟨clean, fun final isFinal => ?_⟩
          rw [read] at isFinal
          cases isFinal
      | some final =>
          refine iff_of_false ?_ fun harmless => broken final read (harmless.named final read)
          rintro ⟨parsed, same, _⟩
          cases same
  | troubled trouble =>
      refine iff_of_false ?_ fun harmless => trouble harmless.untroubled
      cases readLines Reading.start lines with
      | none =>
          rintro ⟨error, same, code⟩
          cases same
          cases code
      | some final =>
          rintro ⟨parsed, same, _⟩
          cases same

theorem svnConfigParseFile_agrees (cfg : SvnConfig) (path : String) (text : Bytes) (mustExist : Bool)
    (noNull : (0 : UInt8) ∉ text) :
    Agrees cfg Reading.start (textLines text) (svnConfigParseFile cfg path (.contents text) mustExist) := by
  obtain ⟨joined, nonempty⟩ := unlines_textLines text
  have isMatch : Matches cfg Reading.start ⟨cfg, path, 1, [], []⟩ :=
    ⟨rfl, fun _ _ => rfl, List.forall_mem_nil _, List.not_mem_nil⟩
  obtain ⟨follows, _⟩ := lines_agree cfg (textLines text) (textLines_plain text) (textLines_noNull text noNull)
  have agrees := follows (text.length + 1) (textLines_length text) _ _ isMatch rfl
  rw [finish, lineEnd, if_neg nonempty, joined] at agrees
  exact agrees

/-- A value whose first line is blank, or an option without a name, is stripped in an empty buffer. -/
theorem svnConfigParseFile_iff (cfg : SvnConfig) (path : String) (text : Bytes) (mustExist : Bool)
    (noNull : (0 : UInt8) ∉ text) :
    AsDescribed cfg (textLines text) (svnConfigParseFile cfg path (.contents text) mustExist) ↔
      Harmless (textLines text) :=
  (svnConfigParseFile_agrees cfg path text mustExist noNull).asDescribed_iff

theorem svnConfigParseFile_iff_value :
    AsDescribed .empty (textLines [91, 97, 93, 10, 98, 61, 99])
        (svnConfigParseFile .empty "config" (.contents [91, 97, 93, 10, 98, 61, 99]) false) ↔
      Harmless (textLines [91, 97, 93, 10, 98, 61, 99]) :=
  svnConfigParseFile_iff .empty "config" [91, 97, 93, 10, 98, 61, 99] false (by decide)

/-- Here nothing stands behind the separator. -/
theorem svnConfigParseFile_emptyValue :
    ¬ AsDescribed .empty (textLines [91, 97, 93, 10, 98, 61, 10])
        (svnConfigParseFile .empty "config" (.contents [91, 97, 93, 10, 98, 61, 10]) false) := by
  have read : readLines Reading.start (textLines [91, 97, 93, 10, 98, 61, 10]) =
      some ⟨some [97], false, [⟨[97], [98], [], []⟩]⟩ := by decide +kernel
  have parsed : svnConfigParseFile .empty "config" (.contents [91, 97, 93, 10, 98, 61, 10]) false =
      .error SvnError.undefinedBehaviour := rfl
  rw [AsDescribed, read, parsed]
  rintro ⟨_, same, _⟩
  cases same

end Result

end Subversion.Subr.ConfigFile
