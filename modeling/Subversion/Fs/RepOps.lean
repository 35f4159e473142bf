/-
This file models the operations that write, clear, deltify, and undeltify representations.
-/

import Mathlib.Logic.Relation
import Subversion.Fs.Reps

namespace Subversion.Fs

open Framing Delta Svndiff

def fulltextRep (mutable : Bool) (strKey : StrKey) : Rep := ⟨mutable, .fulltext strKey⟩

/-- The strings behind a rep. -/
def RepKind.strKeys : RepKind → List StrKey
  | .fulltext strKey => [strKey]
  | .delta windows => windows.map DeltaWindow.strKey

def deleteStrings (strings : StringsTable) (keys : List StrKey) : Except SvnError StringsTable :=
  keys.foldlM stringDelete strings

/-- The undeltifying loop of `svn_fs__get_mutable_rep`. The amount is what the read reported. -/
def copyFulltext (store : Store) (depth rep size : Nat) :
    Nat → Nat → Option StrKey → StringsTable → Except SvnError (Option StrKey × StringsTable)
  | 0, _, _, _ => .error SvnError.stackExhausted
  | fuel + 1, offset, newStr, strings =>
      if offset < size then
        match repReadRange store depth rep offset (min (size - offset) 10000) with
        | .error error => .error error
        | .ok bytes =>
            match stringAppend strings newStr bytes with
            | (key, next) =>
                copyFulltext store depth rep size fuel (offset + bytes.length) (some key) next
      else .ok (newStr, strings)

/-- An immutable rep is copied as a mutable fulltext. Without a rep, an empty one is made. -/
def getMutableRep (store : Store) (depth : Nat) (rep : Option Nat) :
    Except SvnError (Nat × Store) :=
  match rep with
  | none =>
      match stringAppend store.strings none [] with
      | (newStr, strings) =>
          .ok (writeNewRep { store with strings := strings } (fulltextRep true newStr))
  | some rep =>
      match readRep store rep with
      | .error error => .error error
      | .ok skel =>
          if skel.mutable then .ok (rep, store)
          else
            match skel.kind with
            | .fulltext oldStr =>
                match stringCopy store.strings oldStr with
                | .error error => .error error
                | .ok (newStr, strings) =>
                    .ok (writeNewRep { store with strings := strings } (fulltextRep true newStr))
            | .delta _ =>
                match repContentsSize store rep with
                | .error error => .error error
                | .ok size =>
                    match copyFulltext store depth rep size (size + 1) 0 none store.strings with
                    | .error error => .error error
                    | .ok (newStr, strings) =>
                        .ok (writeNewRep { store with strings := strings }
                          (fulltextRep true (newStr.getD none)))

def makeRepImmutable (store : Store) (rep : Nat) : Except SvnError Store :=
  match readRep store rep with
  | .error error => .error error
  | .ok skel => .ok (if skel.mutable then writeRep store rep { skel with mutable := false } else store)

def deleteRepIfMutable (store : Store) (rep : Nat) : Except SvnError Store :=
  match readRep store rep with
  | .error error => .error error
  | .ok skel =>
      if skel.mutable then
        match deleteStrings store.strings skel.kind.strKeys with
        | .error error => .error error
        | .ok strings => deleteRep { store with strings := strings } rep
      else .ok store

/-- The error for an immutable rep is created but not returned. -/
def repWrite (store : Store) (rep : Nat) (bytes : Bytes) : Except SvnError Store :=
  match readRep store rep with
  | .error error => .error error
  | .ok skel =>
      match skel.kind with
      | .fulltext strKey =>
          .ok { store with strings := (stringAppend store.strings (some strKey) bytes).2 }
      | .delta _ => .error ⟨.fsCorrupt,
          "rep_write: rep \"" ++ keyText rep ++ "\" both mutable and non-fulltext"⟩

def repContentsClear (store : Store) (rep : Nat) : Except SvnError Store :=
  match readRep store rep with
  | .error error => .error error
  | .ok skel =>
      if skel.mutable then
        match skel.kind with
        | .fulltext none => .ok store
        | .fulltext (some key) =>
            match stringClear store.strings (some key) with
            | .error error => .error error
            | .ok strings => .ok { store with strings := strings }
        | .delta windows =>
            match stringAppend store.strings none [] with
            | (strKey, strings) =>
                match deleteStrings strings (RepKind.delta windows).strKeys with
                | .error error => .error error
                | .ok strings =>
                    .ok (writeRep { store with strings := strings } rep (fulltextRep true strKey))
      else .error ⟨.fsRepNotMutable,
        "svn_fs__rep_contents_clear: rep \"" ++ keyText rep ++ "\" is not mutable"⟩

/-- A stream over a rep is pulled in chunks until it is empty. -/
def pullStream (reader : Reader) (rep chunk : Nat) :
    Nat → Nat → Bytes → Except SvnError Bytes
  | 0, _, _ => .error SvnError.stackExhausted
  | fuel + 1, offset, pulled =>
      match reader rep offset chunk with
      | .error error => .error error
      | .ok bytes =>
          if bytes = [] then .ok pulled
          else pullStream reader rep chunk fuel (offset + bytes.length) (pulled ++ bytes)

/-- A rep of known size is empty after so many rounds. -/
def streamFuel (store : Store) (rep : Nat) : Nat :=
  match repContentsSize store rep with
  | .ok size => size + 2
  | .error _ => 1

def repContentsReadStream (store : Store) (depth rep : Nat) : Except SvnError Bytes :=
  pullStream (repReadRange store depth) rep streamChunkSize (streamFuel store rep) 0 []

/-- `size` counts the bytes of one window, the stripped stream header included. -/
structure WriteSvndiffBaton where
  key : Option StrKey
  size : Nat
  headerRead : Nat
  strings : StringsTable

/-- The first four bytes are stripped from the stream. -/
def writeSvndiffStrings (baton : WriteSvndiffBaton) (bytes : Bytes) :
    Except SvnError WriteSvndiffBaton :=
  let nheader := if baton.headerRead < 4 then 4 - baton.headerRead else 0
  if bytes.length < nheader then .error SvnError.undefinedBehaviour
  else
    match stringAppend baton.strings baton.key (bytes.drop nheader) with
    | (key, strings) =>
        .ok ⟨some key, baton.size + bytes.length, baton.headerRead + nheader, strings⟩

/-- The writes that the svndiff encoder makes for one window or for the end mark. -/
def svndiffWrites (headerDone : Bool) (window : Option TxdeltaWindow) :
    Except SvnError (List Bytes) :=
  let header := if headerDone then [] else [svndiffHeader]
  match window with
  | none => .ok header
  | some window =>
      match encodeWrites window with
      | none => .error SvnError.assertion
      | some writes => .ok (header ++ writes)

structure WindowWrite where
  key : StrKey
  svndiffLen : Nat
  textOff : Nat
  textLen : Nat
  deriving DecidableEq, Repr

/-- The windows written so far, with the totals of their texts and of their diffs. -/
structure DeltifyState where
  stream : TxdeltaStream
  headerDone : Bool
  headerRead : Nat
  strings : StringsTable
  windows : List WindowWrite
  tviewOff : Nat
  diffsize : Nat

/-- Each window goes to a string of its own. -/
def deltifyWindow (state : DeltifyState) :
    Except SvnError (Option TxdeltaWindow × DeltifyState) :=
  match txdeltaNextWindow state.stream with
  | .error error => .error error
  | .ok (window, stream) =>
      match svndiffWrites state.headerDone window with
      | .error error => .error error
      | .ok writes =>
          match writes.foldlM writeSvndiffStrings ⟨none, 0, state.headerRead, state.strings⟩ with
          | .error error => .error error
          | .ok baton =>
              let next := { state with
                stream := stream
                headerDone := true
                headerRead := baton.headerRead
                strings := baton.strings }
              match window with
              | none => .ok (none, next)
              | some window => .ok (some window, { next with
                  windows := state.windows ++
                    [⟨baton.key.getD none, baton.size, state.tviewOff, window.tviewLen⟩]
                  tviewOff := state.tviewOff + window.tviewLen
                  diffsize := state.diffsize + baton.size })

/-- The loop ends with the end mark. -/
def deltifyWindows : Nat → DeltifyState → Except SvnError DeltifyState
  | 0, _ => .error SvnError.stackExhausted
  | fuel + 1, state =>
      match deltifyWindow state with
      | .error error => .error error
      | .ok (none, last) => .ok last
      | .ok (some _, next) => deltifyWindows fuel next

/-- The actual amount of storage of a rep. -/
def storedSize (strings : StringsTable) : List StrKey → Except SvnError Nat
  | [] => .ok 0
  | key :: keys =>
      match stringSize strings key, storedSize strings keys with
      | .ok size, .ok rest => .ok (size + rest)
      | .error error, _ => .error error
      | _, .error error => .error error

/-- The diff replaces the old strings only when it is smaller. -/
def hookDelta (store : Store) (target source : Nat) (written : DeltifyState) :
    Except SvnError Store :=
  match readRep store target with
  | .error error => .error error
  | .ok oldRep =>
      match storedSize written.strings oldRep.kind.strKeys with
      | .error error => .error error
      | .ok oldSize =>
          if oldSize ≤ written.diffsize then
            match deleteStrings written.strings (written.windows.map WindowWrite.key) with
            | .error error => .error error
            | .ok strings => .ok { store with strings := strings }
          else
            match deleteStrings written.strings oldRep.kind.strKeys with
            | .error error => .error error
            | .ok strings =>
                .ok (writeRep { store with strings := strings } target ⟨false, .delta
                  (written.windows.map fun written =>
                    ⟨written.textOff, written.textLen, written.key, source⟩)⟩)

def repDeltify (store : Store) (depth target source : Nat) : Except SvnError Store :=
  if target = source then
    .error ⟨.fsCorrupt, "svn_fs__rep_deltify: attempt to deltify \"" ++ keyText target ++
      "\" against itself"⟩
  else
    match repContentsSize store target with
    | .error error => .error error
    | .ok size =>
        -- reps larger than one window are left alone
        if streamChunkSize < size then .ok store
        else
          match repContentsReadStream store depth source,
              repContentsReadStream store depth target with
          | .ok sourceText, .ok targetText =>
              match deltifyWindows (targetText.length + 1)
                  ⟨txdelta sourceText targetText, false, 0, store.strings, [], 0, 0⟩ with
              | .error error => .error error
              | .ok written =>
                  if written.stream.more then
                    .error ⟨.deltaMd5ChecksumAbsent,
                      "svn_fs__rep_deltify: failed to calculate MD5 digest for " ++ keyText source⟩
                  else hookDelta store target source written
          | .error error, _ => .error error
          | _, .error error => .error error

/-- Every chunk, the empty one at the end included, becomes a record of the new string. -/
def writeFulltext (store : Store) (depth rep : Nat) :
    Nat → Nat → Option StrKey → StringsTable → Except SvnError (Option StrKey × StringsTable)
  | 0, _, _, _ => .error SvnError.stackExhausted
  | fuel + 1, offset, key, strings =>
      match repReadRange store depth rep offset 65536 with
      | .error error => .error error
      | .ok bytes =>
          match stringAppend strings key bytes with
          | (key, next) =>
              if bytes = [] then .ok (some key, next)
              else writeFulltext store depth rep fuel (offset + bytes.length) (some key) next

def repUndeltify (store : Store) (depth rep : Nat) : Except SvnError Store :=
  match readRep store rep with
  | .error error => .error error
  | .ok skel =>
      match skel.kind with
      | .fulltext _ => .ok store
      | .delta windows =>
          match writeFulltext store depth rep (streamFuel store rep) 0 none store.strings with
          | .error error => .error error
          | .ok (newStr, strings) =>
              match deleteStrings strings (RepKind.delta windows).strKeys with
              | .error error => .error error
              | .ok strings =>
                  .ok (writeRep { store with strings := strings } rep
                    (fulltextRep false (newStr.getD none)))

/-- The operations on representations. -/
inductive RepOp where
  | getMutable (rep : Option Nat)
  | makeImmutable (rep : Nat)
  | deleteIfMutable (rep : Nat)
  | write (rep : Nat) (bytes : Bytes)
  | clear (rep : Nat)
  | deltify (target source : Nat)
  | undeltify (rep : Nat)

def runRepOp (store : Store) (depth : Nat) : RepOp → Except SvnError Store
  | .getMutable rep => (getMutableRep store depth rep).map Prod.snd
  | .makeImmutable rep => makeRepImmutable store rep
  | .deleteIfMutable rep => deleteRepIfMutable store rep
  | .write rep bytes => repWrite store rep bytes
  | .clear rep => repContentsClear store rep
  | .deltify target source => repDeltify store depth target source
  | .undeltify rep => repUndeltify store depth rep

/-- A failed operation is rolled back with its trail, so only successful ones count. -/
inductive RepsReachable : Store → Prop where
  | empty : RepsReachable emptyStore
  | step {store next : Store} {depth : Nat} {op : RepOp} (earlier : RepsReachable store)
      (ran : runRepOp store depth op = .ok next) : RepsReachable next

/-- One successful operation that meets a condition on the state before it. -/
def AllowedStep (allowed : Store → RepOp → Prop) (store next : Store) : Prop :=
  ∃ depth op, allowed store op ∧ runRepOp store depth op = .ok next

theorem RepsReachable.run {allowed : Store → RepOp → Prop} {store next : Store}
    (reachable : RepsReachable store)
    (run : Relation.ReflTransGen (AllowedStep allowed) store next) : RepsReachable next := by
  induction run with
  | refl => exact reachable
  | tail _ step ih =>
      obtain ⟨depth, op, -, ran⟩ := step
      exact ih.step ran

end Subversion.Fs
