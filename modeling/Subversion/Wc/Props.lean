/-
This file models the property merge of the working copy and compares it with its table of conflicts.
-/

import Subversion.Wc.Entries

namespace Subversion.Wc

open Delta

/-- A hash of properties. Its entries stand in the order in which the hash gives them. -/
abbrev PropHash := AList fun _ : Bytes => Bytes

/-- Without a value, the property is deleted. -/
structure PropChange where
  name : Bytes
  value : Option Bytes
  deriving DecidableEq, Repr

def hashSet (hash : PropHash) (name : Bytes) (value : Option Bytes) : PropHash :=
  match value with
  | some value => hash.insert name value
  | none => hash.erase name

/-- The first loop finds deletions and modifications, and the second one finds creations. -/
def getLocalPropchanges (localprops baseprops : PropHash) : List PropChange :=
  (baseprops.entries.filterMap fun entry =>
    match localprops.lookup entry.1 with
    | none => some ⟨entry.1, none⟩
    | some value => if entry.2 = value then none else some ⟨entry.1, some value⟩) ++
  localprops.entries.filterMap fun entry =>
    match baseprops.lookup entry.1 with
    | none => some ⟨entry.1, some entry.2⟩
    | some _ => none

/-- The description of a conflict. The check of the names has the wrong sense. -/
def conflictingPropchangesP (user update : PropChange) : Option String :=
  if user.name = update.name then none
  else
    match user.value, update.value with
    | some mine, none => some ("prop `" ++ text user.name ++ "': user set value to '" ++ text mine ++
        "', but update deletes it.\n")
    | none, some theirs => some ("prop `" ++ text user.name ++
        "': user deleted, but update sets it to '" ++ text theirs ++ "'.\n")
    | none, none => none
    | some mine, some theirs =>
        if mine ≠ theirs then
          some ("prop `" ++ text user.name ++ "': user set to '" ++ text mine ++
            "', but update set to '" ++ text theirs ++ "'.\n")
        else none

/-- The two hashes, the conflicts by name, and what is appended to the reject file. -/
structure Merged where
  basehash : PropHash
  localhash : PropHash
  conflicts : AList fun _ : Bytes => PropChange
  rejects : List String

/-- One round of the loop over the changes of the update. -/
def mergeChange (localPropchanges : List PropChange) (merged : Merged) (update : PropChange) :
    Merged :=
  let merged := { merged with basehash := hashSet merged.basehash update.name update.value }
  match (localPropchanges.find? fun change => change.name = update.name).bind fun change =>
      conflictingPropchangesP change update with
  | some description => { merged with
      conflicts := merged.conflicts.insert update.name update
      rejects := merged.rejects ++ [description] }
  | none => { merged with localhash := hashSet merged.localhash update.name update.value }

/-- The property files of an entry, and the text of its reject file. -/
structure PropFiles where
  base : Option PropHash
  working : Option PropHash
  rejects : List String

/-- A file that is missing leaves the hash empty. -/
def loadPropFile (file : Option PropHash) : PropHash := file.getD ∅

def mergePropDiffs (files : PropFiles) (propchanges : List PropChange) : Merged :=
  let localhash := loadPropFile files.working
  let basehash := loadPropFile files.base
  propchanges.foldl (mergeChange (getLocalPropchanges localhash basehash))
    ⟨basehash, localhash, ∅, []⟩

def admDirName : Bytes := [46, 115, 118, 110]

/-- The text from the first occurrence of the needle on. -/
def strstr (needle : Bytes) : Bytes → Bytes
  | [] => []
  | byte :: rest => if needle.isPrefixOf (byte :: rest) then byte :: rest else strstr needle rest

/-- The commands of the log name the right files if the path does not hold the name of the
administrative directory itself. -/
def logNamesFiles (path : Bytes) : Prop := strstr admDirName (path ++ 47 :: admDirName) = admDirName

instance (path : Bytes) : Decidable (logNamesFiles path) := inferInstanceAs (Decidable (_ = _))

/-- The log moves the new files into place. The case of a file falls through and returns. The flag
says whether the files that a log names by mistake are there. -/
def svnWcMergePropDiffs (path : Bytes) (misnamed : Bool) (entry : Option NodeKind)
    (files : PropFiles) (propchanges : List PropChange) : Except SvnError PropFiles :=
  match entry with
  | none => .error ⟨.entryNotFound, "Can't merge props into '" ++ text path ++
      "':it's not under revision control."⟩
  | some .dir =>
      let merged := mergePropDiffs files propchanges
      if logNamesFiles path then
        .ok ⟨some merged.basehash, some merged.localhash, files.rejects ++ merged.rejects⟩
      else if misnamed then .ok { files with rejects := files.rejects ++ merged.rejects }
      else .error ⟨.wcBadAdmLog, "in directory " ++ text path⟩
  | some _ => .ok files

section Table

/-- The documented table, for a property that the user has set or deleted. -/
def TableConflict : Option Bytes → Option Bytes → Prop
  | some mine, some theirs => mine ≠ theirs
  | some _, none => True
  | none, some _ => True
  | none, none => False

/-- The user has changed the property, and the table says that the changes conflict. -/
def Conflicts (basehash localhash : PropHash) (change : PropChange) : Prop :=
  basehash.lookup change.name ≠ localhash.lookup change.name ∧
    TableConflict (localhash.lookup change.name) change.value

theorem tableConflict_iff (mine theirs : Option Bytes) : TableConflict mine theirs ↔ mine ≠ theirs := by
  cases mine <;> cases theirs <;> simp [TableConflict]

instance (mine theirs : Option Bytes) : Decidable (TableConflict mine theirs) :=
  decidable_of_iff _ (tableConflict_iff mine theirs).symm

instance (basehash localhash : PropHash) (change : PropChange) :
    Decidable (Conflicts basehash localhash change) := inferInstanceAs (Decidable (_ ∧ _))

def changeOf (changes : List PropChange) (name : Bytes) : Option PropChange :=
  changes.find? fun change => change.name = name

/-- The old base with the changes applied. -/
def newBase (basehash : PropHash) (changes : List PropChange) (name : Bytes) : Option Bytes :=
  match changeOf changes name with
  | none => basehash.lookup name
  | some change => change.value

/-- A changed name takes the incoming value, except that the user's value is kept in a conflict. -/
def newLocal (basehash localhash : PropHash) (changes : List PropChange) (name : Bytes) :
    Option Bytes :=
  match changeOf changes name with
  | none => localhash.lookup name
  | some change => if Conflicts basehash localhash change then localhash.lookup name else change.value

/-- The merge has the documented result. -/
structure FollowsTable (basehash localhash : PropHash) (changes : List PropChange)
    (merged : Merged) : Prop where
  base : ∀ name, merged.basehash.lookup name = newBase basehash changes name
  working : ∀ name, merged.localhash.lookup name = newLocal basehash localhash changes name
  conflicts : ∀ name, name ∈ merged.conflicts ↔
    ∃ change ∈ changes, change.name = name ∧ Conflicts basehash localhash change

/-- The documented result is stored. -/
def Stores (basehash localhash : PropHash) (changes : List PropChange)
    (result : Except SvnError PropFiles) : Prop :=
  ∃ files, result = .ok files ∧
    (∀ name, (loadPropFile files.base).lookup name = newBase basehash changes name) ∧
    ∀ name, (loadPropFile files.working).lookup name = newLocal basehash localhash changes name

end Table

section Loop

variable {basehash localhash : PropHash} {changes : List PropChange}

theorem lookup_hashSet (hash : PropHash) (name : Bytes) (value : Option Bytes) (other : Bytes) :
    (hashSet hash name value).lookup other = if other = name then value else hash.lookup other := by
  cases value with
  | some value =>
      by_cases same : other = name
      · subst same
        simp [hashSet]
      · simp [hashSet, same]
  | none =>
      by_cases same : other = name
      · subst same
        simp [hashSet]
      · simp [hashSet, same]

/-- Changes that are looked up have the same name, so the check says that they do not conflict. -/
theorem mergeChange_eq (found : List PropChange) (merged : Merged) (update : PropChange) :
    mergeChange found merged update = { merged with
      basehash := hashSet merged.basehash update.name update.value
      localhash := hashSet merged.localhash update.name update.value } := by
  have silent : ((found.find? fun change => change.name = update.name).bind fun change =>
      conflictingPropchangesP change update) = none := by
    cases search : found.find? fun change => change.name = update.name with
    | none => rfl
    | some change =>
        have same : change.name = update.name := by simpa using List.find?_some search
        simp [conflictingPropchangesP, same]
  rw [mergeChange, silent]

/-- A hash after the changes, when each is applied without question. -/
theorem foldl_mergeChange (found changes : List PropChange)
    (distinct : (changes.map PropChange.name).Nodup) : ∀ merged : Merged,
    let last := changes.foldl (mergeChange found) merged
    (∀ name, last.basehash.lookup name = newBase merged.basehash changes name) ∧
      (∀ name, last.localhash.lookup name = newBase merged.localhash changes name) ∧
      last.conflicts = merged.conflicts := by
  induction changes with
  | nil => exact fun merged => ⟨fun _ => rfl, fun _ => rfl, rfl⟩
  | cons update rest ih =>
      intro merged
      rw [List.map_cons, List.nodup_cons] at distinct
      obtain ⟨base, working, conflicts⟩ := ih distinct.2 (mergeChange found merged update)
      rw [mergeChange_eq] at base working conflicts
      -- a name of the first change occurs in no later one
      have later : ∀ name, name = update.name → changeOf rest name = none := by
        rintro name rfl
        rw [changeOf, List.find?_eq_none]
        intro change member
        have different : change.name ≠ update.name := fun same =>
          distinct.1 (same ▸ List.mem_map_of_mem member)
        simpa using different
      have first : ∀ (hash : PropHash) name,
          newBase (hashSet hash update.name update.value) rest name =
            newBase hash (update :: rest) name := by
        intro hash name
        by_cases same : name = update.name
        · have here : changeOf (update :: rest) name = some update := by
            simp [changeOf, same]
          rw [newBase, newBase, later name same, here]
          simp only [lookup_hashSet]
          rw [if_pos same]
        · have skipped : changeOf (update :: rest) name = changeOf rest name := by
            simp [changeOf, Ne.symm same]
          rw [newBase, newBase, skipped]
          simp only [lookup_hashSet]
          rw [if_neg same]
      refine ⟨fun name => ?_, fun name => ?_, ?_⟩
      · rw [List.foldl_cons, mergeChange_eq, base, first]
      · rw [List.foldl_cons, mergeChange_eq, working, first]
      · rw [List.foldl_cons, mergeChange_eq, conflicts]

end Loop

section Comparison

variable {basehash localhash : PropHash} {changes : List PropChange}

theorem changeOf_mem {name : Bytes} {change : PropChange} (found : changeOf changes name = some change) :
    change ∈ changes ∧ change.name = name :=
  ⟨List.mem_of_find?_eq_some found, by simpa using List.find?_some found⟩

theorem changeOf_self (distinct : (changes.map PropChange.name).Nodup) {change : PropChange}
    (member : change ∈ changes) : changeOf changes change.name = some change := by
  have some : (changeOf changes change.name).isSome := by
    rw [changeOf, List.find?_isSome]
    exact ⟨change, member, by simp⟩
  obtain ⟨other, found⟩ := Option.isSome_iff_exists.mp some
  obtain ⟨isMember, sameName⟩ := changeOf_mem found
  rw [found, List.inj_on_of_nodup_map distinct isMember member sameName]

/-- Without conflicts, both hashes take every change. -/
theorem newLocal_eq_newBase (peace : ∀ change ∈ changes, ¬ Conflicts basehash localhash change)
    (name : Bytes) : newLocal basehash localhash changes name = newBase localhash changes name := by
  rw [newLocal, newBase]
  cases found : changeOf changes name with
  | none => rfl
  | some change => exact if_neg (peace change (changeOf_mem found).1)

/-- The code never records a conflict, so it follows the table exactly when there is none. -/
theorem followsTable_iff (files : PropFiles) (distinct : (changes.map PropChange.name).Nodup) :
    FollowsTable (loadPropFile files.base) (loadPropFile files.working) changes
        (mergePropDiffs files changes) ↔
      ∀ change ∈ changes, ¬ Conflicts (loadPropFile files.base) (loadPropFile files.working) change := by
  obtain ⟨base, working, conflicts⟩ := foldl_mergeChange
    (getLocalPropchanges (loadPropFile files.working) (loadPropFile files.base)) changes distinct
    ⟨loadPropFile files.base, loadPropFile files.working, ∅, []⟩
  constructor
  · intro follows change member conflict
    have recorded := (follows.conflicts change.name).mpr ⟨change, member, rfl, conflict⟩
    rw [mergePropDiffs, conflicts] at recorded
    exact absurd recorded (AList.notMem_empty _)
  · intro peace
    refine ⟨base, fun name => ?_, fun name => ?_⟩
    · rw [newLocal_eq_newBase peace, mergePropDiffs, working]
    · rw [mergePropDiffs, conflicts]
      constructor
      · intro impossible
        exact absurd impossible (AList.notMem_empty _)
      · rintro ⟨change, member, _, conflict⟩
        exact absurd conflict (peace change member)

/-- Files that stay as they are hold the documented result when every change is made already. -/
theorem stores_unchanged_iff {files after : PropFiles} (base : after.base = files.base)
    (working : after.working = files.working) (distinct : (changes.map PropChange.name).Nodup)
    (peace : ∀ change ∈ changes,
      ¬ Conflicts (loadPropFile files.base) (loadPropFile files.working) change) :
    Stores (loadPropFile files.base) (loadPropFile files.working) changes (.ok after) ↔
      ∀ change ∈ changes, (loadPropFile files.base).lookup change.name = change.value := by
  constructor
  · rintro ⟨_, ⟨⟩, stored, _⟩ change member
    have here := stored change.name
    rw [base, newBase, changeOf_self distinct member] at here
    exact here
  · intro made
    refine ⟨after, rfl, fun name => ?_, fun name => ?_⟩
    · rw [base, newBase]
      cases found : changeOf changes name with
      | none => rfl
      | some change =>
          obtain ⟨member, rfl⟩ := changeOf_mem found
          exact made change member
    · rw [working, newLocal_eq_newBase peace, newBase]
      cases found : changeOf changes name with
      | none => rfl
      | some change =>
          obtain ⟨member, rfl⟩ := changeOf_mem found
          -- a local value that differs from the base would conflict with the change
          by_contra different
          apply peace change member
          have value := made change member
          exact ⟨fun same => different (same.symm.trans value),
            (tableConflict_iff _ _).mpr different⟩

end Comparison

/-- The merge follows the table exactly when no change conflicts. For a file, and where the log
names the wrong files, nothing is stored, so there must be nothing to change. -/
theorem prop_merge_follows_table_iff (path : Bytes) (misnamed : Bool) (kind : NodeKind)
    (versioned : kind = .file ∨ kind = .dir) (files : PropFiles) (changes : List PropChange)
    (distinct : (changes.map PropChange.name).Nodup) :
    (FollowsTable (loadPropFile files.base) (loadPropFile files.working) changes
        (mergePropDiffs files changes) ∧
      Stores (loadPropFile files.base) (loadPropFile files.working) changes
        (svnWcMergePropDiffs path misnamed (some kind) files changes)) ↔
    (∀ change ∈ changes,
        ¬ Conflicts (loadPropFile files.base) (loadPropFile files.working) change) ∧
      (kind = .dir ∧ logNamesFiles path ∨ (kind = .file ∨ misnamed = true) ∧
        ∀ change ∈ changes, (loadPropFile files.base).lookup change.name = change.value) := by
  rw [followsTable_iff files distinct]
  apply and_congr_right
  intro peace
  have follows := (followsTable_iff files distinct).mpr peace
  rcases versioned with rfl | rfl
  · rw [svnWcMergePropDiffs, stores_unchanged_iff rfl rfl distinct peace]
    · simp
    · simp
  · simp only [svnWcMergePropDiffs]
    by_cases named : logNamesFiles path
    · rw [if_pos named]
      exact ⟨fun _ => Or.inl ⟨trivial, named⟩, fun _ => ⟨_, rfl, follows.base, follows.working⟩⟩
    · rw [if_neg named]
      cases misnamed with
      | true =>
          have kept := @stores_unchanged_iff changes files
            { files with rejects := files.rejects ++ (mergePropDiffs files changes).rejects }
            rfl rfl distinct peace
          rw [if_pos rfl, kept]
          simp [named]
      | false =>
          rw [if_neg (by decide)]
          constructor
          · rintro ⟨_, ⟨⟩, _⟩
          · simp [named]

/-- A directory takes a new property and keeps one that the user has set. -/
theorem prop_merge_follows_table_iff_directory :
    let files : PropFiles := ⟨none, some ((∅ : PropHash).insert [1] [2]), []⟩
    FollowsTable (loadPropFile files.base) (loadPropFile files.working) [⟨[3], some [4]⟩]
        (mergePropDiffs files [⟨[3], some [4]⟩]) ∧
      Stores (loadPropFile files.base) (loadPropFile files.working) [⟨[3], some [4]⟩]
        (svnWcMergePropDiffs [119] false (some .dir) files [⟨[3], some [4]⟩]) := by
  intro files
  apply (prop_merge_follows_table_iff [119] false .dir (Or.inr rfl) files [⟨[3], some [4]⟩]
    (by simp)).mpr
  exact ⟨by decide, Or.inl ⟨rfl, by decide⟩⟩

/-- The user sets a property that the update sets to another value. The user's value is overwritten,
and no conflict is recorded. -/
theorem prop_merge_overwrites_the_user :
    let files : PropFiles := ⟨none, some ((∅ : PropHash).insert [1] [2]), []⟩
    let merged := mergePropDiffs files [⟨[1], some [3]⟩]
    Conflicts (loadPropFile files.base) (loadPropFile files.working) ⟨[1], some [3]⟩ ∧
      merged.localhash.lookup [1] = some [3] ∧ [1] ∉ merged.conflicts ∧
      ¬ FollowsTable (loadPropFile files.base) (loadPropFile files.working) [⟨[1], some [3]⟩]
        merged := by
  intro files merged
  have conflict : Conflicts (loadPropFile files.base) (loadPropFile files.working) ⟨[1], some [3]⟩ := by
    decide
  refine ⟨conflict, by decide, by decide, ?_⟩
  intro follows
  exact absurd ((follows.conflicts [1]).mpr ⟨_, List.mem_singleton_self _, rfl, conflict⟩) (by decide)

end Subversion.Wc
