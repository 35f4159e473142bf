/-
This file lists the error codes that the modelled functions return.
-/

import Mathlib.Tactic

namespace Subversion

/-- The first three are not Subversion errors: the process has no defined next step. -/
inductive ErrorCode where
  | assertion
  | undefinedBehaviour
  | stackExhausted
  | incompleteData
  | svndiffInvalidHeader
  | svndiffCorruptWindow
  | svndiffBackwardView
  | svndiffInvalidOps
  | svndiffUnexpectedEnd
  | deltaMd5ChecksumAbsent
  | malformedXml
  | xmlMissingAncestry
  | xmlUnknownEncoding
  | berkeleyDb
  | fsGeneral
  | fsCorrupt
  | fsIdNotFound
  | fsNoSuchRepresentation
  | fsNoSuchString
  | fsRepNotMutable
  | fsNotDirectory
  | fsNotFile
  | fsNotMutable
  | fsNotFound
  | fsNotId
  | fsNotTxnRoot
  | fsNotSinglePathComponent
  | fsAlreadyExists
  | fsNoSuchEntry
  | fsNoSuchTransaction
  | fsDirNotEmpty
  | fsRootDir
  | fsConflict
  | txnOutOfDate
  | fsPathSyntax
  | apr
  | unknownNodeKind
  | entryNotFound
  | entryMissingRevision
  | entryMissingUrl
  | entryAttributeInvalid
  | wcScheduleConflict
  | wcLocked
  | wcObstructedUpdate
  | wcConflict
  | wcFoundConflict
  | wcLeftLocalMod
  | ioUniqueNamesExhausted
  | externalProgram
  | unsupportedFeature
  | wcBadAdmLog
  | clientDuplicateCommitUrl
  | fsRepChanged
  | ioInconsistentEol
  | badFilename
  | malformedFile
  | wcCorrupt
  | illegalTarget
  deriving DecidableEq, Repr

/-- An error carries its code and its text. -/
structure SvnError where
  code : ErrorCode
  message : String
  deriving DecidableEq, Repr

/-- A failed assertion stops the process. -/
def SvnError.assertion : SvnError := ⟨.assertion, ""⟩

/-- C gives the next step no meaning. -/
def SvnError.undefinedBehaviour : SvnError := ⟨.undefinedBehaviour, ""⟩

/-- A recursion does not come to an end. -/
def SvnError.stackExhausted : SvnError := ⟨.stackExhausted, ""⟩

theorem bind_eq_ok {E α β : Type} {step : Except E α} {next : α → Except E β} {result : β}
    (done : (step >>= next) = .ok result) : ∃ value, step = .ok value ∧ next value = .ok result := by
  cases step with
  | error error => cases done
  | ok value => exact ⟨value, rfl, done⟩

theorem ok_bind {E α β : Type} (value : α) (next : α → Except E β) :
    (Except.ok value >>= next) = next value := rfl

theorem error_bind {E α β : Type} (error : E) (next : α → Except E β) :
    (Except.error error >>= next) = .error error := rfl

end Subversion
