/-
This file shows what a removal from revision control leaves of the files when it is to destroy none.
-/

import Subversion.Wc.RevertedItems

namespace Subversion.Wc

open Delta Subr Lib

/-- All files are there as they were, and no directory under revision control has kept its administrative
area. -/
structure Released (standing : List Bytes → Standing) (before after : Option Node) : Prop where
  files : ∀ path, after.bind (Node.fileAt path) = before.bind (Node.fileAt path)
  areas : ∀ path, standing path = .directory → after.bind (Node.areaAt path) = none

/-- The state of the loop, with the entries that are still to come. -/
structure Releasing (translator : Translator) (format : TimeFormat) (before : WcDir)
    (rest : List (Sigma fun _ : Bytes => Entry)) (done : Removal) : Prop where
  nodup : rest.NodupKeys
  listed : ∀ entry ∈ rest, entry.1 ≠ thisDirName → before.kindOf format entry.1 = some entry.2.kind
  inner : ∀ name, name ∈ rest.keys → done.dir.inner.lookup name = before.inner.lookup name
  released : ∀ name, name ∉ rest.keys → Released (fun path => standing translator format (name :: path) before)
    (before.inner.lookup name) (done.dir.inner.lookup name)

/-- What the removal of a directory does without destroying files. -/
structure DirReleased (translator : Translator) (format : TimeFormat) (dir : WcDir) (name : Bytes)
    (removal : Removal) : Prop where
  others : ∀ other, other ≠ name → removal.dir.inner.lookup other = dir.inner.lookup other
  released : ∃ below, dir.below name = some below ∧ Released (fun path => standing translator format path below)
    (dir.inner.lookup name) (removal.dir.inner.lookup name)

section Loop

variable {translator : Translator} {format : TimeFormat} {order : EntriesOrder} {path name : Bytes}
  {dir before : WcDir} {done next removal : Removal} {entry : Sigma fun _ : Bytes => Entry}
  {rest : List (Sigma fun _ : Bytes => Entry)}

theorem Released.refl {standing : List Bytes → Standing} (node : Option Node)
    (noArea : ∀ path, standing path ≠ .directory) : Released standing node node :=
  ⟨fun _ => rfl, fun path isDirectory => absurd isDirectory (noArea path)⟩

theorem Released.tree {inner : List (Bytes × Node)}
    (each : ∀ name, Released (fun path => standing translator format (name :: path) dir) (dir.inner.lookup name)
      (inner.lookup name)) :
    Released (fun path => standing translator format path dir) (some (.dir (some dir.adm) dir.inner))
      (some (.dir none inner)) where
  files := fun path => by
    cases path with
    | nil => rfl
    | cons name path => exact (each name).files path
  areas := fun path isDirectory => by
    cases path with
    | nil => rfl
    | cons name path => exact (each name).areas path isDirectory

/-- The files of properties of a directory in the place of the file are all that is touched of it. -/
theorem removePropFiles_released {name : Bytes} :
    (∀ other, other ≠ name → (removePropFiles dir name).inner.lookup other = dir.inner.lookup other) ∧
      ∀ path, ((removePropFiles dir name).inner.lookup name).bind (Node.fileAt path) =
        (dir.inner.lookup name).bind (Node.fileAt path) := by
  rw [removePropFiles]
  split
  case h_1 own below isDir =>
    refine ⟨fun other differs => by rw [lookup_placed, if_neg differs], fun path => ?_⟩
    rw [lookup_placed, if_pos rfl, isDir]
    cases path <;> rfl
  case h_2 => exact ⟨fun _ _ => rfl, fun _ => rfl⟩

theorem removeFile_released (removed : removeFile translator format path dir name false = .ok removal) :
    (∀ other, other ≠ name → removal.dir.inner.lookup other = dir.inner.lookup other) ∧
      Released (fileStanding translator format dir name) (dir.inner.lookup name)
        (removal.dir.inner.lookup name) := by
  obtain ⟨modified, checked, rest⟩ := bind_eq_ok removed
  cases checked
  obtain ⟨inner, isInner, rest⟩ := bind_eq_ok rest
  cases isInner
  obtain ⟨adm, erasure, ends⟩ := bind_eq_ok rest
  cases ends
  obtain ⟨others, files⟩ := @removePropFiles_released ⟨adm.withoutTextBase name, dir.inner⟩ name
  exact ⟨others, files, fun path isDirectory => absurd isDirectory (fileStanding_ne_directory path)⟩

theorem Releasing.step (releasing : Releasing translator format before (entry :: rest) done)
    (others : ∀ other, other ≠ entry.1 → next.dir.inner.lookup other = done.dir.inner.lookup other)
    (released : Released (fun path => standing translator format (entry.1 :: path) before)
      (before.inner.lookup entry.1) (next.dir.inner.lookup entry.1)) :
    Releasing translator format before rest next := by
  obtain ⟨fresh, nodup⟩ := List.nodupKeys_cons.mp releasing.nodup
  refine ⟨nodup, fun other member => releasing.listed other (List.mem_cons_of_mem _ member), ?_, ?_⟩
  · intro name member
    have differs : name ≠ entry.1 := fun same => fresh (same ▸ member)
    rw [others name differs]
    exact releasing.inner name (List.mem_cons_of_mem _ member)
  · intro name absent
    by_cases same : name = entry.1
    · rw [same]
      exact released
    · rw [others name same]
      exact releasing.released name fun member => (List.mem_cons.mp member).elim same absent

/-- One round of the loop. -/
theorem removeEntry_releasing {remove : Bytes → WcDir → Bytes → Bool → Except SvnError Removal}
    (removes : ∀ path dir name removal, remove path dir name false = .ok removal →
      DirReleased translator format dir name removal)
    (releasing : Releasing translator format before (entry :: rest) done)
    (round : removeEntry translator format remove path false done entry = .ok next) :
    Releasing translator format before rest next := by
  have listed := releasing.listed entry List.mem_cons_self
  have same : done.dir.inner.lookup entry.1 = before.inner.lookup entry.1 :=
    releasing.inner entry.1 List.mem_cons_self
  rw [removeEntry] at round
  split at round
  case isTrue isFile =>
    split at round
    case isTrue => cases round
    case isFalse named =>
      obtain ⟨removed, removal, ends⟩ := bind_eq_ok round
      cases ends
      obtain ⟨others, released⟩ := removeFile_released removal
      rw [same] at released
      refine releasing.step others ⟨released.files, fun path isDirectory => ?_⟩
      rw [standing_file ((listed named).trans (congrArg some isFile))] at isDirectory
      exact absurd isDirectory (fileStanding_ne_directory path)
  case isFalse noFile =>
    split at round
    case isTrue isDir =>
      obtain ⟨removed, removal, ends⟩ := bind_eq_ok round
      cases ends
      have spec := removes _ _ _ _ removal
      obtain ⟨below, isBelow, released⟩ := spec.released
      rw [WcDir.below, same, ← WcDir.below] at isBelow
      rw [same] at released
      refine releasing.step spec.others ⟨released.files, fun path isDirectory => ?_⟩
      rw [standing_below ((listed isDir.1).trans (congrArg some isDir.2)) isBelow] at isDirectory
      exact released.areas path isDirectory
    case isFalse noDir =>
      cases round
      refine releasing.step (fun _ _ => rfl) ?_
      rw [same]
      refine .refl _ fun path isDirectory => ?_
      rw [standing_passed listed noFile noDir] at isDirectory
      cases isDirectory

theorem releasing_start {entries : EntriesHash} (read : entriesRead format before.adm.entries = .ok entries) :
    Releasing translator format before (order.list entries) ⟨before, false⟩ := by
  obtain ⟨nodup, listed, unlisted⟩ := @order_listed _ _ order _ read
  refine ⟨nodup, listed, fun _ _ => rfl, fun name absent => .refl _ fun path isDirectory => ?_⟩
  have noKind := unlisted name absent
  rw [standing_unversioned (by rw [noKind]; nofun) (by rw [noKind]; nofun)] at isDirectory
  cases isDirectory

theorem removeDir_released (fuel : Nat) : ∀ path dir name removal,
    removeDir translator format order fuel path dir name false = .ok removal →
      DirReleased translator format dir name removal := by
  induction fuel with
  | zero => exact fun _ _ _ _ removed => nomatch removed
  | succ fuel ih =>
      intro path dir name removal removed
      rw [removeDir] at removed
      obtain ⟨adm, erasure, rest⟩ := bind_eq_ok removed
      split at rest
      case h_1 own inner isBelow =>
        obtain ⟨entries, read, rest⟩ := bind_eq_ok rest
        obtain ⟨after, looped, destroyed⟩ := bind_eq_ok rest
        have releasing := GuardedRuns.foldlM_ends (Releasing translator format ⟨own, inner⟩)
          (fun entry rest done next => removeEntry_releasing ih) _ (releasing_start read) looped
        rw [destroyDir] at destroyed
        split at destroyed
        case isTrue => cases destroyed
        case isFalse =>
          rw [if_neg (fun destroys => Bool.false_ne_true destroys.1)] at destroyed
          cases destroyed
          refine ⟨fun other differs => by rw [lookup_placed, if_neg differs],
            ⟨⟨own, inner⟩, by rw [WcDir.below, isBelow], ?_⟩⟩
          rw [lookup_placed, if_pos rfl, isBelow]
          exact @Released.tree _ _ ⟨own, inner⟩ _ fun name => releasing.released name List.not_mem_nil
      case h_2 => cases rest

/-- The rest of a directory stays when the entry of an item is removed. -/
theorem kept_of_erasure {adm : Adm} {after : WcDir} (sound : dir.Sound format)
    (erasure : removeFromEntries format path dir.adm name = .ok adm) (entries : after.adm.entries = adm.entries)
    (dirProps : after.adm.dirProps = dir.adm.dirProps) (dirPropBase : after.adm.dirPropBase = dir.adm.dirPropBase)
    (others : ∀ other, other ≠ name → after.inner.lookup other = dir.inner.lookup other ∧
      after.adm.props other = dir.adm.props other ∧ after.adm.propBase other = dir.adm.propBase other ∧
      after.adm.textBase other = dir.adm.textBase other) :
    Kept format (· = name) dir after ∧ after.row format name = none := by
  obtain ⟨back, readable, othersKept, gone⟩ := removeFromEntries_rows sound erasure
  rw [← entries] at readable
  obtain ⟨soundAfter, sameUrl, fits, rows, isRow⟩ := rows_of_othersKept readable othersKept
  rw [gone] at isRow
  refine ⟨⟨soundAfter, sameUrl, fits, ?_, fun _ => dirProps, dirPropBase, ?_⟩, isRow⟩
  · intro other absent
    by_cases same : other = name
    · rw [same, isRow]
    · rw [rows other same, absent]
  · intro other differs
    obtain ⟨inner, props, propBase, textBase⟩ := others other differs
    exact ⟨inner, props, propBase, textBase, rows other differs⟩

theorem removeDir_kept {fuel : Nat} (sound : dir.Sound format)
    (removed : removeDir translator format order fuel path dir name false = .ok removal) :
    Kept format (· = name) dir removal.dir ∧ removal.dir.row format name = none := by
  have others := (removeDir_released fuel path dir name removal removed).others
  cases fuel with
  | zero => cases removed
  | succ fuel =>
      rw [removeDir] at removed
      obtain ⟨adm, erasure, rest⟩ := bind_eq_ok removed
      have sameAdm : removal.dir.adm = adm := by
        split at rest
        case h_1 own inner isBelow =>
          obtain ⟨entries, read, rest⟩ := bind_eq_ok rest
          obtain ⟨after, looped, destroyed⟩ := bind_eq_ok rest
          rw [destroyDir] at destroyed
          split at destroyed
          case isTrue => cases destroyed
          case isFalse =>
            rw [if_neg (fun destroys => Bool.false_ne_true destroys.1)] at destroyed
            cases destroyed
            rfl
        case h_2 => cases rest
      obtain ⟨file, rfl, -, -⟩ := removeFromEntries_spec erasure
      refine kept_of_erasure sound erasure (by rw [sameAdm]) (by rw [sameAdm]) (by rw [sameAdm]) ?_
      intro other differs
      exact ⟨others other differs, by rw [sameAdm], by rw [sameAdm], by rw [sameAdm]⟩

theorem removeFile_kept (sound : dir.Sound format) (noBelow : dir.below name = none)
    (removed : removeFile translator format path dir name false = .ok removal) :
    Kept format (· = name) dir removal.dir ∧ removal.dir.row format name = none ∧
      removal.dir.inner.lookup name = dir.inner.lookup name := by
  obtain ⟨modified, checked, rest⟩ := bind_eq_ok removed
  cases checked
  obtain ⟨inner, isInner, rest⟩ := bind_eq_ok rest
  cases isInner
  obtain ⟨adm, erasure, ends⟩ := bind_eq_ok rest
  cases ends
  obtain ⟨file, rfl, -, -⟩ := removeFromEntries_spec erasure
  have same : removePropFiles ⟨({ dir.adm with entries := file } : Adm).withoutTextBase name, dir.inner⟩ name =
      ⟨(({ dir.adm with entries := file } : Adm).withoutTextBase name).withoutProps name, dir.inner⟩ := by
    rw [removePropFiles]
    split
    case h_1 own below isDir =>
      rw [WcDir.below, isDir] at noBelow
      cases noBelow
    case h_2 => rfl
  rw [same]
  have released : Kept format (· = name) dir ⟨(({ dir.adm with entries := file } : Adm).withoutTextBase
        name).withoutProps name, dir.inner⟩ ∧
      WcDir.row format ⟨(({ dir.adm with entries := file } : Adm).withoutTextBase name).withoutProps name,
        dir.inner⟩ name = none := by
    refine kept_of_erasure sound erasure rfl rfl rfl fun other differs => ⟨rfl, ?_, ?_, ?_⟩
    all_goals exact Function.update_of_ne differs _ _
  exact ⟨released.1, released.2, rfl⟩

end Loop

end Subversion.Wc
