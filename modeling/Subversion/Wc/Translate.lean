/-
This file models the translation of newlines and keywords between a repository and a working copy.
-/

import Subversion.Error
import Subversion.Delta.Window

namespace Subversion.Wc.Translate

open Delta

def keywordMaxLen : Nat := 255

/-- The values of the active keywords. -/
structure Keywords where
  revision : Option Bytes
  date : Option Bytes
  author : Option Bytes
  url : Option Bytes
  deriving DecidableEq, Repr

def revisionLong : Bytes := "LastChangedRevision".toUTF8.toList
def revisionShort : Bytes := "Rev".toUTF8.toList
def dateLong : Bytes := "LastChangedDate".toUTF8.toList
def dateShort : Bytes := "Date".toUTF8.toList
def authorLong : Bytes := "LastChangedBy".toUTF8.toList
def authorShort : Bytes := "Author".toUTF8.toList
def urlLong : Bytes := "HeadURL".toUTF8.toList
def urlShort : Bytes := "URL".toUTF8.toList

/-- The copy ends at a null byte, and what is left is filled with them. -/
def strncpy (text : Bytes) (len : Nat) : Bytes :=
  let front := (text.takeWhile (· ≠ 0)).take len
  front ++ List.replicate (len - front.length) 0

/-- A long value is cut, but not by the length of the keyword. -/
def expandedText (keyword value : Bytes) : Bytes :=
  if value = [] then [36] ++ keyword ++ [58, 32, 36]
  else [36] ++ keyword ++ [58, 32] ++ strncpy value (min value.length (keywordMaxLen - 5)) ++ [32, 36]

/-- Without a value, the keyword is contracted. -/
def translateKeywordSubst (buf keyword : Bytes) (value : Option Bytes) : Option Bytes :=
  if buf.length < keyword.length + 2 then none
  else if (buf.drop 1).take keyword.length ≠ keyword then none
  else if (buf.drop (1 + keyword.length)).head? = some 36 then
    match value with
    | some value => some (expandedText keyword value)
    | none => some buf
  else if 4 + keyword.length ≤ buf.length ∧ (buf.drop (1 + keyword.length)).take 2 = [58, 32] ∧
      buf[buf.length - 2]? = some 32 then
    match value with
    | some value => some (expandedText keyword value)
    | none => some ([36] ++ keyword ++ [36])
  else none

/-- A keyword without a value is ignored, even when it is only contracted. -/
def translateEither (buf : Bytes) (expand : Bool) (value : Option Bytes) (long short : Bytes) :
    Option Bytes :=
  match value with
  | none => none
  | some value =>
      let value := if expand then some value else none
      (translateKeywordSubst buf long value).or (translateKeywordSubst buf short value)

/-- The new contents of the buffer, if a keyword is found in it. -/
def translateKeyword (buf : Bytes) (expand : Bool) (keywords : Option Keywords) : Option Bytes :=
  match keywords with
  | none => none
  | some keywords =>
      (translateEither buf expand keywords.revision revisionLong revisionShort).or <|
      (translateEither buf expand keywords.date dateLong dateShort).or <|
      (translateEither buf expand keywords.author authorLong authorShort).or <|
        translateEither buf expand keywords.url urlLong urlShort

/-- The arguments of a translation, apart from the contents of the file. -/
structure Params where
  src : String
  eolStr : Option Bytes
  repair : Bool
  keywords : Option Keywords
  expand : Bool
  deriving DecidableEq, Repr

/-- The variable `len` has no value at first, and it is shared by the branches. -/
structure State where
  newlineBuf : Bytes
  keywordBuf : Bytes
  len : Option Nat
  srcFormat : Bytes
  deriving DecidableEq, Repr

/-- The translated newline, and the format of the first newline that was found. -/
def translateNewline (params : Params) (srcFormat newline : Bytes) :
    Except SvnError (Bytes × Bytes) :=
  if srcFormat = [] then .ok (params.eolStr.getD [], newline)
  else if params.repair = false ∧ srcFormat ≠ newline then
    .error ⟨.ioInconsistentEol, params.src⟩
  else .ok (params.eolStr.getD [], srcFormat)

/-- The newline buffer is written out. What comes behind it is another matter. -/
def flushNewline (params : Params) (state : State) (newline kept : Bytes) :
    Except SvnError (Bytes × State) :=
  match translateNewline params state.srcFormat newline with
  | .error error => .error error
  | .ok (written, srcFormat) =>
      .ok (written, { state with newlineBuf := kept, srcFormat := srcFormat })

def translateDollar (params : Params) (state : State) : Except SvnError (Bytes × State) :=
  -- the newline ends here, and so does the branch
  if state.newlineBuf ≠ [] then flushNewline params state state.newlineBuf []
  else if params.keywords = none then .ok ([36], state)
  else
    let buf := state.keywordBuf ++ [36]
    if buf.length = 1 then .ok ([], { state with keywordBuf := buf })
    else
      match translateKeyword buf params.expand params.keywords with
      | some image =>
          -- the substitution is made in the buffer
          if keywordMaxLen < image.length then .error SvnError.undefinedBehaviour
          else .ok (image, { state with keywordBuf := [], len := some image.length })
      | none =>
          .ok (state.keywordBuf, { state with keywordBuf := [36], len := some buf.length })

def translateNewlineByte (params : Params) (state : State) (c : UInt8) :
    Except SvnError (Bytes × State) :=
  let flushed := { state with keywordBuf := [], len := some state.keywordBuf.length }
  if params.eolStr = none then .ok (state.keywordBuf ++ [c], flushed)
  else if state.newlineBuf = [] then .ok (state.keywordBuf, { flushed with newlineBuf := [c] })
  else if state.newlineBuf.head? = some c ∨ (state.newlineBuf.head? = some 10 ∧ c = 13) then
    flushNewline params flushed (state.newlineBuf.take 1) [c]
  else flushNewline params flushed (state.newlineBuf ++ [c]) []

def translateOther (params : Params) (state : State) (c : UInt8) : Except SvnError (Bytes × State) :=
  if state.keywordBuf ≠ [] then
    let buf := state.keywordBuf ++ [c]
    if keywordMaxLen ≤ buf.length then
      -- as many bytes are written as the variable says
      match state.len with
      | none => .error SvnError.undefinedBehaviour
      | some len =>
          if keywordMaxLen < len then .error SvnError.undefinedBehaviour
          else .ok (buf.take len, { state with keywordBuf := [] })
    else .ok ([], { state with keywordBuf := buf })
  else if state.newlineBuf ≠ [] then
    match flushNewline params state state.newlineBuf [] with
    | .error error => .error error
    | .ok (written, state) => .ok (written ++ [c], state)
  else .ok ([c], state)

/-- What is written for one byte, and the next state. -/
def translateByte (params : Params) (state : State) (c : UInt8) : Except SvnError (Bytes × State) :=
  if c = 36 then translateDollar params state
  else if c = 10 ∨ c = 13 then translateNewlineByte params state c
  else translateOther params state c

/-- Both buffers are written at the end of the file. -/
def translateEnd (params : Params) (state : State) : Except SvnError Bytes :=
  if state.newlineBuf ≠ [] then
    match translateNewline params state.srcFormat state.newlineBuf with
    | .error error => .error error
    | .ok (written, _) => .ok (written ++ state.keywordBuf)
  else .ok state.keywordBuf

/-- An error removes the copy. -/
def translateFrom (params : Params) : State → Bytes → Except SvnError Bytes
  | state, [] => translateEnd params state
  | state, c :: rest =>
      match translateByte params state c with
      | .error error => .error error
      | .ok (written, state) =>
          match translateFrom params state rest with
          | .error error => .error error
          | .ok copy => .ok (written ++ copy)

def State.start : State := ⟨[], [], none, []⟩

/-- The contents of the copy. -/
def copyAndTranslate (params : Params) (contents : Bytes) : Except SvnError Bytes :=
  if params.eolStr = none ∧ params.keywords = none then .ok contents
  else translateFrom params State.start contents

end Subversion.Wc.Translate
