/-
This file models how files and directories are removed from revision control, and how an update deletes
an entry.
-/

import Subversion.Lib.GuardedRuns
import Subversion.Lib.Tables
import Subversion.Wc.CommittedText
import Subversion.Wc.Scheduling

namespace Subversion.Wc

open Delta Subr Lib

/-- The administrative area of a directory, as far as its entries and their files are concerned. -/
structure Adm where
  entries : List Atts
  textBase : Bytes → Option Bytes
  props : Bytes → Option Stamped
  propBase : Bytes → Option Bytes
  wcprops : Bytes → Option Bytes
  dirProps : Option Stamped
  dirPropBase : Option Bytes
  dirWcprops : Option Bytes
  locked : Bool

/-- A directory without an administrative area is not a working copy. -/
inductive Node where
  | file (file : Stamped)
  | dir (adm : Option Adm) (inner : List (Bytes × Node))

/-- A working copy directory, with what is in it. -/
structure WcDir where
  adm : Adm
  inner : List (Bytes × Node)

/-- What a removal leaves, and whether it gives back that local modifications were left. -/
structure Removal where
  dir : WcDir
  left : Bool

/-- The order in which a hash gives its entries. -/
structure EntriesOrder where
  list : EntriesHash → List (Sigma fun _ : Bytes => Entry)
  perm : ∀ entries, (list entries).Perm entries.entries

def WcDir.working (dir : WcDir) (name : Bytes) : Option Stamped :=
  match dir.inner.lookup name with
  | some (.file file) => some file
  | _ => none

def WcDir.area (dir : WcDir) (name : Bytes) : FileArea where
  entries := dir.adm.entries
  working := dir.working name
  tmpTextBase := none
  textBase := dir.adm.textBase name
  props := dir.adm.props name
  tmpProps := none
  propBase := dir.adm.propBase name
  wcprops := dir.adm.wcprops name
  clock := 0

def Adm.withoutTextBase (adm : Adm) (name : Bytes) : Adm :=
  { adm with textBase := Function.update adm.textBase name none }

def Adm.withoutProps (adm : Adm) (name : Bytes) : Adm :=
  { adm with
    props := Function.update adm.props name none
    propBase := Function.update adm.propBase name none
    wcprops := Function.update adm.wcprops name none }

def Adm.withoutDirProps (adm : Adm) : Adm :=
  { adm with dirProps := none, dirPropBase := none, dirWcprops := none }

def removeFileIfPresent (path : Bytes) (inner : List (Bytes × Node)) (name : Bytes) :
    Except SvnError (List (Bytes × Node)) :=
  match inner.lookup name with
  | none => .ok inner
  | some (.file _) => .ok (erased inner name)
  | some (.dir _ _) => .error ⟨.apr, "svn_io_remove_file: failed to remove file \"" ++
      text (addComponent path name) ++ "\""⟩

/-- Where a working copy directory stands in the place of the file, the files of its own properties are
found. -/
def removePropFiles (dir : WcDir) (name : Bytes) : WcDir :=
  match dir.inner.lookup name with
  | some (.dir (some own) below) =>
      { dir with inner := placed dir.inner name (.dir (some own.withoutDirProps) below) }
  | _ => { dir with adm := dir.adm.withoutProps name }

def notFound (path : Bytes) : SvnError := ⟨.apr, admText path "entries"⟩

section Code

variable (translator : Translator) (format : TimeFormat) (order : EntriesOrder)

def removeFromEntries (path : Bytes) (adm : Adm) (name : Bytes) : Except SvnError Adm :=
  entriesRead format adm.entries >>= fun entries =>
    entriesWrite format path (entries.erase name) >>= fun file => .ok { adm with entries := file }

/-- The case of a file. A modified file is found before anything is removed. -/
def removeFile (path : Bytes) (dir : WcDir) (name : Bytes) (destroyWf : Bool) : Except SvnError Removal :=
  (if destroyWf then textModifiedP translator format name (dir.area name) else .ok false) >>= fun modified =>
    if modified then .ok ⟨dir, true⟩
    else
      (if destroyWf then removeFileIfPresent path dir.inner name else .ok dir.inner) >>= fun inner =>
        removeFromEntries format path dir.adm name >>= fun adm =>
          .ok ⟨removePropFiles ⟨adm.withoutTextBase name, inner⟩ name, false⟩

/-- One round of the loop over the entries, which were read before it. -/
def removeEntry (remove : Bytes → WcDir → Bytes → Bool → Except SvnError Removal) (path : Bytes)
    (destroyWf : Bool) (done : Removal) (entry : Sigma fun _ : Bytes => Entry) : Except SvnError Removal :=
  if entry.2.kind = .file then
    if entry.1 = thisDirName then .error SvnError.undefinedBehaviour
    else removeFile translator format path done.dir entry.1 destroyWf >>= fun removed =>
      .ok ⟨removed.dir, done.left || removed.left⟩
  else if entry.1 ≠ thisDirName ∧ entry.2.kind = .dir then
    remove path done.dir entry.1 destroyWf >>= fun removed => .ok ⟨removed.dir, done.left || removed.left⟩
  else .ok done

/-- The administrative area goes, and so does the directory if nothing is in it. -/
def destroyDir (path : Bytes) (dir : WcDir) (name : Bytes) (destroyWf : Bool) (after : Removal) :
    Except SvnError Removal :=
  if after.dir.adm.locked then
    .error ⟨.wcLocked, "working copy locked: " ++ text (addComponent path name)⟩
  else if destroyWf ∧ after.left = false ∧ after.dir.inner.isEmpty then
    .ok ⟨{ dir with inner := erased dir.inner name }, false⟩
  else
    .ok ⟨{ dir with inner := placed dir.inner name (.dir none after.dir.inner) }, after.left || destroyWf⟩

/-- The case of a directory, which is called by its name in its parent. -/
def removeDir : Nat → Bytes → WcDir → Bytes → Bool → Except SvnError Removal
  | 0, _, _, _, _ => .error SvnError.stackExhausted
  | fuel + 1, path, dir, name, destroyWf =>
      removeFromEntries format path dir.adm name >>= fun adm =>
        match dir.inner.lookup name with
        | some (.dir (some own) inner) =>
            entriesRead format own.entries >>= fun entries =>
              (order.list entries).foldlM
                  (removeEntry translator format (removeDir fuel) (addComponent path name) destroyWf)
                  ⟨⟨own, inner⟩, false⟩ >>= fun after =>
                destroyDir path ⟨adm, dir.inner⟩ name destroyWf after
        | _ => .error (notFound (addComponent path name))

/-- An item is a file of a directory, or a directory that is called by its own `svn:this_dir`. -/
inductive Item where
  | file (name : Bytes)
  | thisDir (name : Bytes)
  deriving DecidableEq, Repr

def Item.name : Item → Bytes
  | file name => name
  | thisDir name => name

def svnWcRemoveFromRevisionControl (fuel : Nat) (path : Bytes) (dir : WcDir) (item : Item)
    (destroyWf : Bool) : Except SvnError Removal :=
  match item with
  | .file name => removeFile translator format path dir name destroyWf
  | .thisDir name => removeDir translator format order fuel path dir name destroyWf

/-- A directory says itself what it is. -/
def svnWcEntry (path : Bytes) (dir : WcDir) (name : Bytes) : Except SvnError (Option Entry) :=
  match dir.inner.lookup name with
  | some (.dir none _) => .error ⟨.wcObstructedUpdate, "svn_wc_entry: " ++ text (addComponent path name) ++
      " is not a working copy directory"⟩
  | some (.dir (some own) _) => entriesRead format own.entries >>= fun entries =>
      .ok (entries.lookup thisDirName)
  | _ => entriesRead format dir.adm.entries >>= fun entries => .ok (entries.lookup name)

/-- The error of the lookup is dropped, and that modifications were left is taken for a success. -/
def logDoDeleteEntry (fuel : Nat) (path : Bytes) (dir : WcDir) (name : Bytes) : Except SvnError WcDir :=
  match svnWcEntry format path dir name with
  | .error error => if error = SvnError.undefinedBehaviour then .error error else .ok dir
  | .ok none => .ok dir
  | .ok (some entry) =>
      if entry.kind = .dir then
        svnWcRemoveFromRevisionControl translator format order fuel path dir (.thisDir name) true >>=
          fun removal => .ok removal.dir
      else if entry.kind = .file then
        svnWcRemoveFromRevisionControl translator format order fuel path dir (.file name) true >>=
          fun removal => .ok removal.dir
      else .ok dir

end Code

end Subversion.Wc
