/-
This file models how the local changes of a working copy are taken back.
-/

import Subversion.Wc.PropsModified
import Subversion.Wc.RemovedTrees

namespace Subversion.Wc

open Delta Subr Lib

/-- The times that the files get when they are written. A file is written at most once in a run. -/
structure Clock where
  text : Bytes → Int64
  props : Bytes → Int64
  text_ne_zero : ∀ path, text path ≠ 0
  props_ne_zero : ∀ path, props path ≠ 0

/-- The working properties of an item, and the ones that it came with. -/
structure ItemProps where
  working : Option Stamped
  base : Option Bytes

/-- An entry, what became of a part of its item, and whether that was changed. -/
structure Restored (α : Type) where
  entry : Entry
  changed : Bool
  part : α

def revertError (path : Bytes) (verb : String) : SvnError :=
  ⟨.apr, "revert: error " ++ verb ++ " for `" ++ text path ++ "'"⟩

def dirProps (own : WcDir) : ItemProps := ⟨own.adm.dirProps, own.adm.dirPropBase⟩

/-- The files of a path, which may be a working copy directory. -/
def itemProps (dir : WcDir) (name : Bytes) : ItemProps :=
  match dir.below name with
  | some own => dirProps own
  | none => ⟨dir.adm.props name, dir.adm.propBase name⟩

def propsModifiedP (path : Bytes) (entrytime : Int64) (files : ItemProps) : Except SvnError Bool :=
  svnWcPropsModifiedP entrytime (files.working.elim 0 Stamped.time)
    ⟨path, files.working.map Stamped.contents⟩ ⟨path, files.base⟩

def WcDir.withDirProps (own : WcDir) (working : Option Stamped) : WcDir :=
  { own with adm := { own.adm with dirProps := working } }

def WcDir.withBelow (dir : WcDir) (name : Bytes) (own : WcDir) : WcDir :=
  { dir with inner := replaced name (.dir (some own.adm) own.inner) dir.inner }

def WcDir.withProps (dir : WcDir) (name : Bytes) (working : Option Stamped) : WcDir :=
  match dir.below name with
  | some own => dir.withBelow name (own.withDirProps working)
  | none => { dir with adm := { dir.adm with props := Function.update dir.adm.props name working } }

def WcDir.withEntries (dir : WcDir) (entries : List Atts) : WcDir :=
  { dir with adm := { dir.adm with entries := entries } }

/-- What is reset, and that is why the entry is written. -/
structure Reset where
  schedule : Bool
  propTime : Bool
  textTime : Bool
  conflictOld : Bool
  conflictNew : Bool
  conflictWrk : Bool
  prejfile : Bool
  deriving DecidableEq

def Reset.any (reset : Reset) : Bool :=
  reset.schedule || reset.propTime || reset.textTime || reset.conflictOld || reset.conflictNew ||
    reset.conflictWrk || reset.prejfile

def Reset.flags (reset : Reset) : ModifyFlags where
  revision := false
  url := false
  kind := false
  textTime := reset.textTime
  propTime := reset.propTime
  schedule := reset.schedule
  copied := false
  copyfromUrl := false
  copyfromRev := false
  conflictOld := reset.conflictOld
  conflictNew := reset.conflictNew
  conflictWrk := reset.conflictWrk
  prejfile := reset.prejfile
  cmtRev := false
  cmtDate := false
  cmtAuthor := false
  force := true

/-- A directory's own entry gets back its schedule and its file of rejected properties. -/
def ownReset : Reset := ⟨true, false, false, false, false, false, true⟩

def resetOf (entry : Entry) (propsChanged textChanged : Bool) : Reset where
  schedule := entry.schedule = .delete ∨ entry.schedule = .replace
  propTime := propsChanged
  textTime := textChanged
  conflictOld := entry.conflictOld.isSome
  conflictNew := entry.conflictNew.isSome
  conflictWrk := entry.conflictWrk.isSome
  prejfile := entry.prejfile.isSome

def revertedEntry (entry : Entry) : Entry :=
  { entry with
    schedule := .normal
    conflictOld := none
    conflictNew := none
    conflictWrk := none
    prejfile := none }

def removeConflictFile (path : Bytes) (inner : List (Bytes × Node)) (file : Option Bytes) :
    Except SvnError (List (Bytes × Node)) :=
  file.elim (.ok inner) (removeFileIfPresent path inner)

def removeConflictFiles (path : Bytes) (entry : Entry) (inner : List (Bytes × Node)) :
    Except SvnError (List (Bytes × Node)) :=
  removeConflictFile path inner entry.conflictOld >>= fun inner =>
    removeConflictFile path inner entry.conflictNew >>= fun inner =>
      removeConflictFile path inner entry.conflictWrk >>= fun inner =>
        removeConflictFile path inner entry.prejfile

section Code

variable (translator : Translator) (format : TimeFormat) (order : EntriesOrder) (clock : Clock)

/-- The working file of the properties has to be there, even where it is only removed. -/
def revertProps (path : Bytes) (entry : Entry) (files : ItemProps) :
    Except SvnError (Restored (Option Stamped)) :=
  propsModifiedP path entry.propTime files >>= fun modified =>
    if modified then
      match files.working, files.base with
      | none, some _ => .error (revertError path "restoring props")
      | none, none => .error (revertError path "removing props")
      | some _, some base =>
          .ok ⟨{ entry with propTime := clock.props path }, true, some ⟨base, clock.props path⟩⟩
      | some _, none => .ok ⟨entry, true, none⟩
    else .ok ⟨entry, false, files.working⟩

/-- The keywords take their values from the entry as it is in its file. -/
def revertText (path : Bytes) (dir : WcDir) (name : Bytes) (row entry : Entry) :
    Except SvnError (Restored WcDir) :=
  textModifiedP translator format name (dir.area name) >>= fun modified =>
    if modified ∨ (dir.inner.lookup name).isNone then
      match dir.adm.textBase name with
      | none => .error (revertError (addComponent path name) "restoring text")
      | some base =>
          translator.expand (dir.adm.props name) row base >>= fun contents =>
            .ok ⟨{ entry with textTime := clock.text (addComponent path name) }, true,
              { dir with
                inner := placed dir.inner name (.file ⟨contents, clock.text (addComponent path name)⟩) }⟩
    else .ok ⟨entry, false, dir⟩

/-- The case of a file, with the update of its entry. -/
def revertFile (path : Bytes) (dir : WcDir) (name : Bytes) (row : Entry) : Except SvnError WcDir :=
  revertProps clock (addComponent path name) row (itemProps dir name) >>= fun props =>
    revertText translator format clock path (dir.withProps name props.part) name row
        props.entry >>= fun restored =>
      removeConflictFiles path row restored.part.inner >>= fun inner =>
        if (resetOf row props.changed restored.changed).any then
          entryModify format path dir.adm.entries (some name) (revertedEntry restored.entry)
              (resetOf row props.changed restored.changed).flags >>= fun entries =>
            .ok ({ restored.part with inner := inner }.withEntries entries)
        else .ok { restored.part with inner := inner }

/-- The two entries of a directory, of which the one in the parent is left alone at the root of a working
copy. -/
def resetEntries (path : Bytes) (dir : WcDir) (name : Bytes) (root : Bool) (own : List Atts) (entry : Entry)
    (reset : Reset) : Except SvnError (List Atts × List Atts) :=
  if reset.any then
    (if root then .ok dir.adm.entries
      else entryModify format path dir.adm.entries (some name) (revertedEntry entry)
        reset.flags) >>= fun entries =>
      entryModify format (addComponent path name) own none (revertedEntry entry) ownReset.flags >>= fun own =>
        .ok (entries, own)
  else .ok (dir.adm.entries, own)

def revertEntry (revert : Bytes → WcDir → Bytes → Except SvnError WcDir) (path : Bytes) (own : WcDir)
    (entry : Sigma fun _ : Bytes => Entry) : Except SvnError WcDir :=
  if entry.1 = thisDirName then .ok own else revert path own entry.1

/-- The case of a directory, with everything in it. -/
def revertDir (revert : Bytes → WcDir → Bytes → Except SvnError WcDir) (path : Bytes) (dir : WcDir)
    (name : Bytes) (root : Bool) (row : Entry) : Except SvnError WcDir :=
  match dir.below name with
  | none => .error (notFound (addComponent path name))
  | some own =>
      revertProps clock (addComponent path name) row (dirProps own) >>= fun props =>
        removeConflictFiles (addComponent path name) row own.inner >>= fun inner =>
          resetEntries format path dir name root own.adm.entries props.entry
              (resetOf row props.changed false) >>= fun files =>
            entriesRead format files.2 >>= fun entries =>
              (order.list entries).foldlM (revertEntry revert (addComponent path name))
                  (({ own with inner := inner }.withDirProps props.part).withEntries files.2) >>= fun after =>
                .ok ((dir.withBelow name after).withEntries files.1)

/-- A directory whose url is not below the one of its parent is the root of a working copy. -/
def svnWcIsWcRoot (dir : WcDir) (name : Bytes) (entry : Entry) : Except SvnError Bool :=
  match entriesRead format dir.adm.entries with
  | .error error => if error = SvnError.undefinedBehaviour then .error error else .ok true
  | .ok entries =>
      match (entries.lookup thisDirName).map Entry.url with
      | none => .ok true
      | some none => .error ⟨.entryMissingUrl, text name ++ "'s parent has no ancestry information."⟩
      | some (some url) => .ok (entry.url.isSome ∧ entry.url ≠ some (addComponent url name))

/-- Everything in the item is reverted with it. An item that was added is released from revision control. -/
def svnWcRevert : Nat → Bytes → WcDir → Bytes → Except SvnError WcDir
  | 0, _, _, _ => .error SvnError.stackExhausted
  | fuel + 1, path, dir, name =>
      svnWcEntry format path dir name >>= fun found =>
        match found with
        | none => .error ⟨.entryNotFound, "Cannot revert '" ++ text (addComponent path name) ++
            "' -- not a versioned resource"⟩
        | some entry =>
            if entry.kind ≠ .file ∧ entry.kind ≠ .dir then
              .error ⟨.unsupportedFeature, "Cannot revert '" ++ text (addComponent path name) ++
                "' -- unsupported entry node kind"⟩
            else
              svnWcIsWcRoot format dir name entry >>= fun root =>
                if entry.schedule = .add then
                  if entry.kind = .dir then
                    removeDir translator format order fuel path dir name false >>= fun removal => .ok removal.dir
                  else if root then .error SvnError.undefinedBehaviour
                  else removeFile translator format path dir name false >>= fun removal => .ok removal.dir
                else if entry.kind = .dir then
                  revertDir format order clock (svnWcRevert fuel) path dir name root entry
                else if root then .error SvnError.undefinedBehaviour
                else revertFile translator format clock path dir name entry

end Code

end Subversion.Wc
