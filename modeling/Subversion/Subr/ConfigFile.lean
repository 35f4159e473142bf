/-
This file models the parser of configuration files, character by character.
-/

import Subversion.Subr.Config
import Subversion.Subr.Whitespace

namespace Subversion.Subr.ConfigFile

open Delta

/-- What a loop over the characters has read, the character that ended it, and what is left. -/
structure Scan where
  text : Bytes
  ch : Option UInt8
  rest : Bytes
  deriving DecidableEq, Repr

def readUntil (stops : UInt8 → Bool) : Bytes → Scan
  | [] => ⟨[], none, []⟩
  | byte :: rest =>
      if stops byte then ⟨[], some byte, rest⟩
      else ⟨byte :: (readUntil stops rest).text, (readUntil stops rest).ch, (readUntil stops rest).rest⟩

def skipWhitespace (text : Bytes) : Scan := readUntil (fun byte => byte = 10 ∨ ¬ isSpace byte) text

def skipToEoln (text : Bytes) : Scan := readUntil (· = 10) text

structure ParseContext where
  cfg : SvnConfig
  file : String
  line : Nat
  sectionName : Bytes
  optionName : Bytes

/-- The context after a routine, with the last character and what is left. -/
structure Parsed where
  ctx : ParseContext
  ch : Option UInt8
  rest : Bytes

def malformed (ctx : ParseContext) (problem : String) : SvnError :=
  ⟨.malformedFile, ctx.file ++ ":" ++ toString ctx.line ++ ": " ++ problem⟩

def cString (text : Bytes) : Bytes := text.takeWhile (· ≠ 0)

def ParseContext.set (ctx : ParseContext) (value : Bytes) : ParseContext :=
  { ctx with cfg := svnConfigSet ctx.cfg (cString ctx.sectionName) (cString ctx.optionName) (cString value) }

def ParseContext.next (ctx : ParseContext) : ParseContext := { ctx with line := ctx.line + 1 }

theorem readUntil_length (stops : UInt8 → Bool) (text : Bytes) :
    (readUntil stops text).rest.length ≤ text.length := by
  induction text with
  | nil => exact le_rfl
  | cons byte rest ih =>
      rw [readUntil]
      split
      · exact Nat.le_succ _
      · exact Nat.le_succ_of_le ih

theorem readUntil_length_lt {stops : UInt8 → Bool} {text : Bytes} {byte : UInt8} :
    (readUntil stops text).ch = some byte → (readUntil stops text).rest.length < text.length := by
  induction text with
  | nil => exact nofun
  | cons first rest ih =>
      rw [readUntil]
      split
      · exact fun _ => Nat.lt_succ_self _
      · exact fun found => Nat.lt_succ_of_lt (ih found)

theorem readUntil_ended {stops : UInt8 → Bool} {text : Bytes} :
    (readUntil stops text).ch = none → (readUntil stops text).rest = [] := by
  induction text with
  | nil => exact fun _ => rfl
  | cons first rest ih =>
      rw [readUntil]
      split
      · exact nofun
      · exact ih

/-- The loop after the first line of a value. A character that belongs to the next line is put back. -/
def parseContinuations (ctx : ParseContext) (value text : Bytes) : Except SvnError Parsed :=
  match found : (skipWhitespace text).ch with
  | none => .ok ⟨ctx.next.set value, none, (skipWhitespace text).rest⟩
  | some byte =>
      if newline : byte = 10 then .ok ⟨ctx.next.next.set value, some 10, (skipWhitespace text).rest⟩
      else if (skipWhitespace text).text.length = 0 then
        .ok ⟨ctx.next.set value, some byte, byte :: (skipWhitespace text).rest⟩
      else
        stripWhitespace (value ++ [32] ++ (skipToEoln (byte :: (skipWhitespace text).rest)).text) >>=
          fun value =>
            if (skipToEoln (byte :: (skipWhitespace text).rest)).ch = none then
              .ok ⟨ctx.next.set value, none, (skipToEoln (byte :: (skipWhitespace text).rest)).rest⟩
            else
              parseContinuations ctx.next value (skipToEoln (byte :: (skipWhitespace text).rest)).rest
termination_by text.length
decreasing_by
  have skipped : (skipWhitespace text).rest.length < text.length := readUntil_length_lt found
  have first : skipToEoln (byte :: (skipWhitespace text).rest) =
      ⟨byte :: (skipToEoln (skipWhitespace text).rest).text, (skipToEoln (skipWhitespace text).rest).ch,
        (skipToEoln (skipWhitespace text).rest).rest⟩ := by
    rw [skipToEoln, readUntil, if_neg (by rw [decide_eq_true_eq]; exact newline)]
    rfl
  rw [first]
  exact Nat.lt_of_le_of_lt (readUntil_length _ _) skipped

/-- Whitespace around the first line of the value is removed before the next line is known. -/
def parseValue (ctx : ParseContext) (text : Bytes) : Except SvnError Parsed :=
  stripWhitespace (skipToEoln text).text >>= fun value =>
    if (skipToEoln text).ch = none then .ok ⟨ctx.set value, none, (skipToEoln text).rest⟩
    else parseContinuations ctx value (skipToEoln text).rest

def readOptionName (text : Bytes) : Scan := readUntil (fun byte => byte = 58 ∨ byte = 61 ∨ byte = 10) text

/-- The first character of the name is read already. -/
def parseOption (ctx : ParseContext) (ch : UInt8) (text : Bytes) : Except SvnError Parsed :=
  if (readOptionName (ch :: text)).ch ≠ some 58 ∧ (readOptionName (ch :: text)).ch ≠ some 61 then
    .error (malformed ctx "Option must end with ':' or '='")
  else
    stripWhitespace (readOptionName (ch :: text)).text >>= fun optionName =>
      parseValue { ctx with optionName := optionName } (readOptionName (ch :: text)).rest

def readSectionName (text : Bytes) : Scan := readUntil (fun byte => byte = 93 ∨ byte = 10) text

/-- Everything from the bracket to the end of the line is ignored. -/
def parseSectionName (ctx : ParseContext) (text : Bytes) : Except SvnError Parsed :=
  if (readSectionName text).ch ≠ some 93 then .error (malformed ctx "Section header must end with ']'")
  else
    .ok ⟨{ ctx with
        sectionName := (readSectionName text).text
        line := if (skipToEoln (readSectionName text).rest).ch = none then ctx.line else ctx.line + 1 },
      (skipToEoln (readSectionName text).rest).ch, (skipToEoln (readSectionName text).rest).rest⟩

/-- One round of the loop. A comment is not counted as a line. -/
def parseItem (ctx : ParseContext) (text : Bytes) : Except SvnError Parsed :=
  match (skipWhitespace text).ch with
  | none => .ok ⟨ctx, none, (skipWhitespace text).rest⟩
  | some byte =>
      if byte = 91 then
        if (skipWhitespace text).text.length = 0 then parseSectionName ctx (skipWhitespace text).rest
        else .error (malformed ctx "Section header must start in the first column")
      else if byte = 35 then
        if (skipWhitespace text).text.length = 0 then
          .ok ⟨ctx, (skipToEoln (skipWhitespace text).rest).ch, (skipToEoln (skipWhitespace text).rest).rest⟩
        else .error (malformed ctx "Comment must start in the first column")
      else if byte = 10 then .ok ⟨ctx.next, some 10, (skipWhitespace text).rest⟩
      else if ctx.sectionName = [] then .error (malformed ctx "Section header expected")
      else if (skipWhitespace text).text.length ≠ 0 then .error (malformed ctx "Option expected")
      else parseOption ctx byte (skipWhitespace text).rest

def parseLoop : Nat → ParseContext → Bytes → Except SvnError SvnConfig
  | 0, _, _ => .error SvnError.stackExhausted
  | fuel + 1, ctx, text => parseItem ctx text >>= fun parsed =>
      if parsed.ch = none then .ok parsed.ctx.cfg else parseLoop fuel parsed.ctx parsed.rest

/-- What is found at the path of a configuration file. -/
inductive FileState where
  | missing
  | unreadable
  | contents (text : Bytes)
  deriving DecidableEq, Repr

def svnConfigParseFile (cfg : SvnConfig) (path : String) (file : FileState) (mustExist : Bool) :
    Except SvnError SvnConfig :=
  match file with
  | .missing =>
      if mustExist then .error ⟨.badFilename, "Can't find config file \"" ++ path ++ "\""⟩ else .ok cfg
  | .unreadable => .error ⟨.badFilename, "Can't open config file \"" ++ path ++ "\""⟩
  | .contents text => parseLoop (text.length + 1) ⟨cfg, path, 1, [], []⟩ text

section Errors

variable {text : Bytes} {bound : Nat} {next : Bytes → Except SvnError Parsed}

/-- The only errors of the parser, apart from what has no meaning. -/
def IsParseError (error : SvnError) : Prop :=
  error = SvnError.undefinedBehaviour ∨ error.code = .malformedFile

/-- A routine leaves no more than it was given. -/
def Reads (bound : Nat) : Except SvnError Parsed → Prop
  | .ok parsed => parsed.rest.length ≤ bound
  | .error error => IsParseError error

theorem Reads.mono {result : Except SvnError Parsed} {limit : Nat} (reads : Reads bound result)
    (less : bound ≤ limit) : Reads limit result := by
  cases result with
  | ok parsed => exact Nat.le_trans reads less
  | error error => exact reads

theorem reads_strip (text : Bytes) (reads : ∀ value, Reads bound (next value)) :
    Reads bound (stripWhitespace text >>= next) := by
  rw [stripWhitespace]
  split
  · exact reads _
  · exact .inl rfl

theorem skipToEoln_length (text : Bytes) : (skipToEoln text).rest.length ≤ text.length := readUntil_length _ text

theorem parseContinuations_eq (ctx : ParseContext) (value text : Bytes) :
    parseContinuations ctx value text =
      match (skipWhitespace text).ch with
      | none => .ok ⟨ctx.next.set value, none, (skipWhitespace text).rest⟩
      | some byte =>
          if byte = 10 then .ok ⟨ctx.next.next.set value, some 10, (skipWhitespace text).rest⟩
          else if (skipWhitespace text).text.length = 0 then
            .ok ⟨ctx.next.set value, some byte, byte :: (skipWhitespace text).rest⟩
          else
            stripWhitespace (value ++ [32] ++ (skipToEoln (byte :: (skipWhitespace text).rest)).text) >>=
              fun value =>
                if (skipToEoln (byte :: (skipWhitespace text).rest)).ch = none then
                  .ok ⟨ctx.next.set value, none, (skipToEoln (byte :: (skipWhitespace text).rest)).rest⟩
                else
                  parseContinuations ctx.next value (skipToEoln (byte :: (skipWhitespace text).rest)).rest := by
  rw [parseContinuations]
  split
  case h_1 found => rw [found]
  case h_2 byte found =>
    rw [found]
    simp only [dite_eq_ite]

theorem parseContinuations_reads (ctx : ParseContext) (value text : Bytes) :
    Reads text.length (parseContinuations ctx value text) := by
  have skipped : (skipWhitespace text).rest.length ≤ text.length := readUntil_length _ text
  induction ctx, value, text using parseContinuations.induct with
  | case1 ctx value text ended =>
      rw [parseContinuations_eq, ended]
      exact skipped
  | case2 ctx value text found =>
      rw [parseContinuations_eq, found]
      exact skipped
  | case3 ctx value text byte found newline firstColumn =>
      rw [parseContinuations_eq, found]
      simp only [if_neg newline, if_pos firstColumn]
      exact readUntil_length_lt found
  | case4 ctx value text byte found newline indented ih =>
      have shorter : (skipToEoln (byte :: (skipWhitespace text).rest)).rest.length ≤ text.length :=
        Nat.le_trans (skipToEoln_length _) (readUntil_length_lt found)
      rw [parseContinuations_eq, found]
      simp only [if_neg newline, if_neg indented]
      refine reads_strip _ fun value => ?_
      split
      · exact shorter
      · exact (ih value (readUntil_length _ _)).mono shorter

theorem parseValue_reads (ctx : ParseContext) (text : Bytes) : Reads text.length (parseValue ctx text) := by
  refine reads_strip _ fun value => ?_
  split
  · exact skipToEoln_length text
  · exact (parseContinuations_reads _ _ _).mono (skipToEoln_length text)

theorem parseOption_reads (ctx : ParseContext) (ch : UInt8) (text : Bytes) :
    Reads text.length (parseOption ctx ch text) := by
  rw [parseOption]
  split
  case isTrue => exact .inr rfl
  case isFalse ended =>
    obtain ⟨stop, found⟩ : ∃ stop, (readOptionName (ch :: text)).ch = some stop := by
      rw [not_and_or, not_not, not_not] at ended
      exact ended.elim (fun colon => ⟨_, colon⟩) fun equals => ⟨_, equals⟩
    have shorter : (readOptionName (ch :: text)).rest.length < text.length + 1 := readUntil_length_lt found
    refine reads_strip _ fun name => ?_
    exact (parseValue_reads _ _).mono (Nat.le_of_lt_succ shorter)

theorem parseSectionName_reads (ctx : ParseContext) (text : Bytes) :
    Reads text.length (parseSectionName ctx text) := by
  rw [parseSectionName]
  split
  · exact .inr rfl
  · exact Nat.le_trans (skipToEoln_length _) (readUntil_length _ text)

/-- An item takes at least one character, or the text is at its end. -/
theorem parseItem_reads (ctx : ParseContext) (text : Bytes) :
    Reads (text.length - 1) (parseItem ctx text) := by
  rw [parseItem]
  cases found : (skipWhitespace text).ch with
  | none =>
      have ended : (skipWhitespace text).rest = [] := readUntil_ended found
      show (skipWhitespace text).rest.length ≤ text.length - 1
      rw [ended]
      exact Nat.zero_le _
  | some byte =>
      have shorter : (skipWhitespace text).rest.length ≤ text.length - 1 :=
        Nat.le_sub_one_of_lt (readUntil_length_lt found)
      simp only
      split_ifs
      · exact (parseSectionName_reads _ _).mono shorter
      · exact .inr rfl
      · exact Nat.le_trans (skipToEoln_length _) shorter
      · exact .inr rfl
      · exact shorter
      · exact .inr rfl
      · exact .inr rfl
      · exact (parseOption_reads _ _ _).mono shorter

/-- The rounds are enough for every text. -/
theorem parseLoop_error (fuel : Nat) : ∀ (ctx : ParseContext) (text : Bytes) (error : SvnError),
    text.length < fuel → parseLoop fuel ctx text = .error error → IsParseError error := by
  induction fuel with
  | zero => exact fun _ _ _ enough => absurd enough (Nat.not_lt_zero _)
  | succ fuel ih =>
      intro ctx text error enough failed
      have reads := parseItem_reads ctx text
      rw [parseLoop] at failed
      cases item : parseItem ctx text with
      | error other =>
          rw [item] at failed reads
          cases failed
          exact reads
      | ok parsed =>
          rw [item, ok_bind] at failed
          rw [item] at reads
          split at failed
          case isTrue => cases failed
          case isFalse more =>
            refine ih parsed.ctx parsed.rest error ?_ failed
            have shorter : parsed.rest.length ≤ text.length - 1 := reads
            cases text with
            | nil =>
                cases item
                exact absurd rfl more
            | cons byte rest =>
                rw [List.length_cons] at shorter enough
                omega

theorem svnConfigParseFile_error {cfg : SvnConfig} {path : String} {file : FileState} {mustExist : Bool}
    {error : SvnError} (failed : svnConfigParseFile cfg path file mustExist = .error error) :
    IsParseError error ∨ error.code = .badFilename := by
  cases file with
  | missing =>
      rw [svnConfigParseFile] at failed
      split at failed
      · cases failed
        exact .inr rfl
      · cases failed
  | unreadable =>
      cases failed
      exact .inr rfl
  | contents text => exact .inl (parseLoop_error _ _ _ error (Nat.lt_succ_self _) failed)

end Errors

end Subversion.Subr.ConfigFile
