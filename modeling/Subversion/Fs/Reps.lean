/-
This file models the representations table and the reading of a representation's fulltext.
-/

import Subversion.Fs.Strings
import Subversion.Delta.Svndiff

namespace Subversion.Fs

open Framing Delta Svndiff

/-- One window of a delta: where its text stands, and which diff against which rep makes it. -/
structure DeltaWindow where
  offset : Nat
  size : Nat
  strKey : StrKey
  base : Nat
  deriving DecidableEq, Repr

inductive RepKind where
  | fulltext (strKey : StrKey)
  | delta (windows : List DeltaWindow)
  deriving DecidableEq, Repr

structure Rep where
  mutable : Bool
  kind : RepKind
  deriving DecidableEq, Repr

/-- The representations table and the strings table. -/
structure Store where
  strings : StringsTable
  reps : Nat → Option Rep
  nextRep : Nat

def emptyStore : Store := ⟨emptyStrings, fun _ => none, 0⟩

def readRep (store : Store) (key : Nat) : Except SvnError Rep :=
  match store.reps key with
  | some rep => .ok rep
  | none => .error ⟨.fsNoSuchRepresentation,
      "svn_fs__read_rep: no such representation `" ++ keyText key ++ "'"⟩

def writeRep (store : Store) (key : Nat) (rep : Rep) : Store :=
  { store with reps := Function.update store.reps key (some rep) }

def writeNewRep (store : Store) (rep : Rep) : Nat × Store :=
  (store.nextRep, { writeRep store store.nextRep rep with nextRep := store.nextRep + 1 })

def deleteRep (store : Store) (key : Nat) : Except SvnError Store :=
  match store.reps key with
  | some _ => .ok { store with reps := Function.update store.reps key none }
  | none => .error ⟨.fsNoSuchRepresentation,
      "svn_fs__delete_rep: no such representation `" ++ keyText key ++ "'"⟩

/-- The recorded number is read as an `int`. -/
def atoi (recorded : Nat) : Except SvnError Nat :=
  if recorded < 2 ^ 31 then .ok recorded else .error SvnError.undefinedBehaviour

/-- A reader returns the bytes that it copied from a rep, an offset, and a length. -/
abbrev Reader := Nat → Nat → Nat → Except SvnError Bytes

/-- `buf` holds the bytes reconstructed so far. -/
structure WindowBaton where
  reqOffset : Nat
  curOffset : Nat
  baseRep : Nat
  lenReq : Nat
  buf : Bytes
  done : Bool
  deriving DecidableEq, Repr

/-- The target data of the window, and the source data once it has been read. -/
structure Play where
  tbuf : Bytes
  sbuf : Option Bytes

/-- The first source copy reads the whole source view. -/
def sourceView (reader : Reader) (baseRep : Nat) (window : TxdeltaWindow) (op : TxdeltaOp)
    (sbuf : Option Bytes) : Except SvnError (Option Bytes) :=
  if op.actionCode = .source ∧ sbuf = none then
    match reader baseRep window.sviewOffset window.sviewLen with
    | .ok view => .ok (some view)
    | .error error => .error error
  else .ok sbuf

/-- A target copy counts its bytes in an `int`. A copy outside the buffers has no meaning. -/
def playOp (reader : Reader) (baseRep : Nat) (window : TxdeltaWindow) (play : Play)
    (op : TxdeltaOp) : Except SvnError Play :=
  match sourceView reader baseRep window op play.sbuf with
  | .error error => .error error
  | .ok sbuf =>
      if op.actionCode = .target ∧ 2 ^ 31 ≤ op.offset + op.length then
        .error SvnError.undefinedBehaviour
      else
        match applyOp window (sbuf.getD []) play.tbuf op with
        | some tbuf => .ok ⟨tbuf, sbuf⟩
        | none => .error SvnError.undefinedBehaviour

/-- The instructions are played until the request is filled. The number is the amount to copy. -/
def playOps (reader : Reader) (baseRep : Nat) (window : TxdeltaWindow) (discard want : Nat) :
    List TxdeltaOp → Play → Nat → Except SvnError (Bytes × Nat)
  | [], play, copyAmt => .ok (play.tbuf, copyAmt)
  | op :: ops, play, copyAmt =>
      match playOp reader baseRep window play op with
      | .error error => .error error
      | .ok next =>
          if discard ≤ next.tbuf.length then
            if want < next.tbuf.length - discard then .ok (next.tbuf, want)
            else
              playOps reader baseRep window discard want ops next (next.tbuf.length - discard)
          else playOps reader baseRep window discard want ops next copyAmt

/-- The requested part of the window's text is appended to the output. -/
def windowHandler (reader : Reader) : WindowHandler WindowBaton := fun baton window =>
  match window with
  | none => ({ baton with done := true }, none)
  | some window =>
      if baton.done then (baton, none)
      else
        let discard := baton.reqOffset - baton.curOffset
        match playOps reader baton.baseRep window discard (baton.lenReq - baton.buf.length)
            window.ops ⟨[], none⟩ 0 with
        | .error error => (baton, some error)
        | .ok (tbuf, copyAmt) =>
            let curOffset := sizeAdd baton.curOffset copyAmt
            ({ baton with
              buf := baton.buf ++ (tbuf.drop discard).take copyAmt
              curOffset := curOffset
              done := decide (sizeAdd baton.reqOffset baton.lenReq ≤ curOffset) }, none)

/-- The svndiff data of one string goes through the parser in chunks. -/
def pumpString (strings : StringsTable) (handler : WindowHandler WindowBaton) (strKey : StrKey) :
    Nat → Nat → DecodeBaton WindowBaton → Except SvnError (DecodeBaton WindowBaton)
  | 0, _, parser => .ok parser
  | fuel + 1, off, parser =>
      match stringRead strings strKey off 4096 with
      | .error error => .error error
      | .ok chunk =>
          match writeHandler handler parser chunk with
          | (_, some error) => .error error
          | (next, none) =>
              if next.drain.baton.done ∨ chunk = [] then .ok next
              else pumpString strings handler strKey fuel (off + chunk.length) next

/-- Each round of the pump except the last two reads at least one byte. -/
def pumpFuel (strings : StringsTable) (strKey : StrKey) : Nat :=
  ((strings.text strKey).getD []).length + 2

/-- The window-specific part of the baton is set before its data is read. -/
def aimBaton (parser : DecodeBaton WindowBaton) (thisOff base : Nat) : DecodeBaton WindowBaton :=
  { parser with drain := { parser.drain with
      baton := { parser.drain.baton with curOffset := thisOff, baseRep := base } } }

/-- Windows before the range are skipped, and the first window after it ends the loop. -/
def readWindows (strings : StringsTable) (reader : Reader) (offset len : Nat) :
    List DeltaWindow → DecodeBaton WindowBaton → Except SvnError (DecodeBaton WindowBaton)
  | [], parser => .ok parser
  | window :: windows, parser =>
      match atoi window.offset, atoi window.size with
      | .ok thisOff, .ok thisLen =>
          if sizeSub (sizeAdd thisOff thisLen) 1 < offset then
            readWindows strings reader offset len windows parser
          else if sizeAdd offset len < thisOff then .ok parser
          else
            match pumpString strings (windowHandler reader) window.strKey
                (pumpFuel strings window.strKey) 0 (aimBaton parser thisOff window.base) with
            | .error error => .error error
            | .ok next =>
                if next.drain.baton.done then .ok next
                else readWindows strings reader offset len windows next
      | _, _ => .error SvnError.undefinedBehaviour

/-- The header goes through the parser first, and the parser is closed at the end. -/
def readDelta (strings : StringsTable) (reader : Reader) (windows : List DeltaWindow)
    (offset len : Nat) : Except SvnError Bytes :=
  if windows = [] then .error SvnError.assertion
  else
    match writeHandler (windowHandler reader)
        (txdeltaParseSvndiff ⟨offset, 0, 0, len, [], false⟩ false) svndiffHeader with
    | (_, some error) => .error error
    | (parser, none) =>
        match readWindows strings reader offset len windows parser with
        | .error error => .error error
        | .ok last =>
            match closeHandler (windowHandler reader) last with
            | (_, some error) => .error error
            | (baton, none) => .ok baton.buf

/-- One level of `rep_read_range`. The reader stands for the recursive call. -/
def readLevel (store : Store) (reader : Reader) : Reader := fun key offset len =>
  match readRep store key with
  | .error error => .error error
  | .ok rep =>
      match rep.kind with
      | .fulltext strKey => stringRead store.strings strKey offset len
      | .delta windows => readDelta store.strings reader windows offset len

/-- The depth bounds the chain of base reps. -/
def repReadRange (store : Store) : Nat → Reader
  | 0 => fun _ _ _ => .error SvnError.stackExhausted
  | depth + 1 => readLevel store (repReadRange store depth)

/-- The size of a delta is the end of its last window. The sum is an `int`. -/
def repContentsSize (store : Store) (key : Nat) : Except SvnError Nat :=
  match readRep store key with
  | .error error => .error error
  | .ok rep =>
      match rep.kind with
      | .fulltext strKey => stringSize store.strings strKey
      | .delta windows =>
          match windows.getLast? with
          | none => .error SvnError.assertion
          | some window =>
              match atoi window.offset, atoi window.size with
              | .ok offset, .ok size =>
                  if offset + size < 2 ^ 31 then .ok (offset + size)
                  else .error SvnError.undefinedBehaviour
              | _, _ => .error SvnError.undefinedBehaviour

def repContents (store : Store) (depth key : Nat) : Except SvnError Bytes :=
  match repContentsSize store key with
  | .error error => .error error
  | .ok size =>
      match repReadRange store depth key 0 size with
      | .error error => .error error
      | .ok bytes =>
          if bytes.length ≠ size then
            .error ⟨.fsCorrupt,
              "svn_fs__rep_read_contents: failure reading rep \"" ++ keyText key ++ "\""⟩
          else .ok bytes

end Subversion.Fs
