/-
This file models how configurations are read into a pointer of the caller, and how files are merged.
-/

import Subversion.Lib.MapChanges
import Subversion.Subr.ConfigFile

namespace Subversion.Subr

open Delta Lib ConfigFile

/-- What the pointer of the caller holds. -/
inductive ConfigPointer where
  | unset
  | null
  | config (cfg : SvnConfig)

/-- The error that a call gives back, and what it leaves behind. -/
structure Returned (α : Type) where
  error : Option SvnError
  state : α

/-- A file in which a configuration may be found. -/
structure ConfigSource where
  path : String
  file : FileState
  deriving DecidableEq, Repr

def ConfigSource.parsed (source : ConfigSource) (mustExist : Bool) : Except SvnError SvnConfig :=
  svnConfigParseFile .empty source.path source.file mustExist

/-- After an error, the pointer is what it was before. -/
def svnConfigRead (cfgp : ConfigPointer) (source : ConfigSource) (mustExist : Bool) :
    Except SvnError (Returned ConfigPointer) :=
  match source.parsed mustExist with
  | .ok cfg => .ok ⟨none, .config cfg⟩
  | .error error =>
      if error = SvnError.undefinedBehaviour then .error error else .ok ⟨some error, cfgp⟩

/-- The orders in which a hash gives the sections, and the options of each. -/
structure HashOrder where
  sections : List CfgSection → List CfgSection
  options : CfgSection → List CfgOption → List CfgOption
  sectionsPerm : ∀ entries, (sections entries).Perm entries
  optionsPerm : ∀ entry entries, (options entry entries).Perm entries

def SvnConfig.table (cfg : SvnConfig) : List CfgSection := cfg.sections.entries.map Sigma.snd

def CfgSection.table (entry : CfgSection) : List CfgOption := entry.options.entries.map Sigma.snd

def visits (order : HashOrder) (cfg : SvnConfig) : List (CfgSection × CfgOption) :=
  (order.sections cfg.table).flatMap fun entry => (order.options entry entry.table).map fun option => (entry, option)

/-- The loops end early where the callback answers with true. -/
def forEachOption {α : Type} (callback : α → CfgSection → CfgOption → α × Bool) :
    α → List (CfgSection × CfgOption) → α
  | baton, [] => baton
  | baton, visit :: rest =>
      if (callback baton visit.1 visit.2).2 then (callback baton visit.1 visit.2).1
      else forEachOption callback (callback baton visit.1 visit.2).1 rest

def mergeCallback (cfg : SvnConfig) (entry : CfgSection) (option : CfgOption) : SvnConfig × Bool :=
  (svnConfigSet cfg entry.name option.name option.value, false)

def svnConfigMerge (order : HashOrder) (cfg : SvnConfig) (source : ConfigSource) (mustExist : Bool) :
    Except SvnError (Returned SvnConfig) :=
  svnConfigRead .unset source mustExist >>= fun read =>
    match read.error, read.state with
    | some error, _ => .ok ⟨some error, cfg⟩
    | none, .config mergeCfg => .ok ⟨none, forEachOption mergeCallback cfg (visits order mergeCfg)⟩
    | none, _ => .error SvnError.undefinedBehaviour

/-- The error of the first read is dropped. -/
def readSystem (cfgp : ConfigPointer) (sysFile : Option ConfigSource) :
    Except SvnError (ConfigPointer × Bool) :=
  match sysFile with
  | none => .ok (cfgp, false)
  | some source => svnConfigRead cfgp source false >>= fun read => .ok (read.state, true)

/-- A pointer that was never set has no configuration to merge into. -/
def readUser (order : HashOrder) (cfgp : ConfigPointer) (redConfig : Bool) (usrFile : Option ConfigSource) :
    Except SvnError (Returned (ConfigPointer × Bool)) :=
  match usrFile, redConfig, cfgp with
  | none, _, _ => .ok ⟨none, (cfgp, redConfig)⟩
  | some source, true, .config cfg => svnConfigMerge order cfg source false >>= fun merged =>
      .ok ⟨merged.error, (.config merged.state, true)⟩
  | some _, true, _ => .error SvnError.undefinedBehaviour
  | some source, false, _ => svnConfigRead cfgp source false >>= fun read =>
      .ok ⟨read.error, (read.state, true)⟩

def readAll (order : HashOrder) (cfgp : ConfigPointer) (sysFile usrFile : Option ConfigSource) :
    Except SvnError (Returned ConfigPointer) :=
  readSystem cfgp sysFile >>= fun system =>
    readUser order system.1 system.2 usrFile >>= fun user =>
      match user.error with
      | some error => .ok ⟨some error, user.state.1⟩
      | none => .ok ⟨none, if user.state.2 then user.state.1 else .null⟩

section Merging

variable {order : HashOrder} {cfg mergeCfg : SvnConfig} {source : ConfigSource} {mustExist : Bool}
  {visit : CfgSection × CfgOption}

def keyOf (visit : CfgSection × CfgOption) : Bytes × Bytes :=
  (makeHashKey visit.1.name, makeHashKey visit.2.name)

/-- A visit is one change of the configuration that is merged into. -/
theorem forEachOption_view (visits : List (CfgSection × CfgOption)) : ∀ cfg : SvnConfig,
    (forEachOption mergeCallback cfg visits).view =
      applyChanges cfg.view (visits.map fun visit => (keyOf visit, some visit.2.value)) := by
  induction visits with
  | nil => exact fun _ => rfl
  | cons visit rest ih =>
      intro cfg
      rw [forEachOption, mergeCallback, if_neg Bool.false_ne_true, ih, SvnConfig.view_set, List.map_cons,
        applyChanges, applyChanges, List.foldl_cons]
      rfl

theorem mem_table_iff {entry : CfgSection} : entry ∈ cfg.table ↔ ∃ key, cfg.sections.lookup key = some entry := by
  rw [SvnConfig.table, List.mem_map]
  constructor
  · rintro ⟨⟨key, _⟩, member, rfl⟩
    exact ⟨key, AList.mem_lookup_iff.mpr member⟩
  · rintro ⟨key, found⟩
    exact ⟨⟨key, entry⟩, AList.mem_lookup_iff.mp found, rfl⟩

theorem CfgSection.mem_table_iff {entry : CfgSection} {option : CfgOption} :
    option ∈ entry.table ↔ ∃ key, entry.options.lookup key = some option := by
  rw [CfgSection.table, List.mem_map]
  constructor
  · rintro ⟨⟨key, _⟩, member, rfl⟩
    exact ⟨key, AList.mem_lookup_iff.mpr member⟩
  · rintro ⟨key, found⟩
    exact ⟨⟨key, option⟩, AList.mem_lookup_iff.mp found, rfl⟩

theorem mem_visits_iff : visit ∈ visits order cfg ↔
    (∃ key, cfg.sections.lookup key = some visit.1) ∧ ∃ key, visit.1.options.lookup key = some visit.2 := by
  rw [visits, List.mem_flatMap]
  constructor
  · rintro ⟨entry, isEntry, member⟩
    obtain ⟨option, isOption, rfl⟩ := List.mem_map.mp member
    exact ⟨mem_table_iff.mp ((order.sectionsPerm _).mem_iff.mp isEntry),
      CfgSection.mem_table_iff.mp ((order.optionsPerm _ _).mem_iff.mp isOption)⟩
  · intro both
    exact ⟨visit.1, (order.sectionsPerm _).mem_iff.mpr (mem_table_iff.mpr both.1),
      List.mem_map.mpr ⟨visit.2, (order.optionsPerm _ _).mem_iff.mpr (CfgSection.mem_table_iff.mpr both.2), rfl⟩⟩

/-- Every value that is set is the one that the merged configuration has. -/
theorem view_of_visit (member : visit ∈ visits order cfg) : cfg.view (keyOf visit) = some visit.2.value := by
  obtain ⟨⟨name, isEntry⟩, option, isOption⟩ := mem_visits_iff.mp member
  have sameName : makeHashKey visit.1.name = name := cfg.keyed name visit.1 isEntry
  have sameOption : makeHashKey visit.2.name = option := visit.1.keyed option visit.2 isOption
  rw [SvnConfig.view, keyOf, sameName, sameOption, isEntry, Option.bind_some, isOption, Option.map_some]

theorem visit_of_view (order : HashOrder) {key : Bytes × Bytes} {value : Bytes} (found : cfg.view key = some value) :
    ∃ visit ∈ visits order cfg, keyOf visit = key := by
  obtain ⟨entry, isEntry, isValue⟩ := Option.bind_eq_some_iff.mp found
  obtain ⟨option, isOption, _⟩ := Option.map_eq_some_iff.mp isValue
  refine ⟨(entry, option), mem_visits_iff.mpr ⟨⟨key.1, isEntry⟩, key.2, isOption⟩, ?_⟩
  exact Prod.ext (cfg.keyed key.1 entry isEntry) (entry.keyed key.2 option isOption)

/-- The union does not depend on the order in which the hashes give their entries. -/
theorem merged_get (order : HashOrder) (cfg mergeCfg : SvnConfig) (name option : Bytes) :
    svnConfigGet (forEachOption mergeCallback cfg (visits order mergeCfg)) name option =
      (svnConfigGet mergeCfg name option).or (svnConfigGet cfg name option) := by
  have values : ∀ change ∈ (visits order mergeCfg).map fun visit => (keyOf visit, some visit.2.value),
      change.2 = mergeCfg.view change.1 := by
    intro change member
    obtain ⟨visit, isVisit, rfl⟩ := List.mem_map.mp member
    exact (view_of_visit isVisit).symm
  rw [svnConfigGet_view, svnConfigGet_view, svnConfigGet_view, forEachOption_view,
    applyChanges_patched _ _ values, patched]
  cases found : mergeCfg.view (makeHashKey name, makeHashKey option) with
  | some value =>
      obtain ⟨visit, member, same⟩ := visit_of_view order found
      rw [if_pos]
      · rfl
      · rw [List.map_map]
        exact List.mem_map.mpr ⟨visit, member, same⟩
  | none =>
      rw [if_neg]
      · rfl
      · rw [List.map_map]
        intro member
        obtain ⟨visit, isVisit, same⟩ := List.mem_map.mp member
        have isThere := view_of_visit isVisit
        rw [show keyOf visit = (makeHashKey name, makeHashKey option) from same, found] at isThere
        cases isThere

end Merging

section Verdicts

variable {order : HashOrder} {cfgp : ConfigPointer} {cfg : SvnConfig} {source : ConfigSource} {mustExist : Bool}
  {error : SvnError}

/-- The file is malformed, or cannot be opened. -/
def ConfigSource.Refused (source : ConfigSource) (mustExist : Bool) : Prop :=
  ∃ error, source.parsed mustExist = .error error ∧ error ≠ SvnError.undefinedBehaviour

/-- The three ways in which the parser may end. -/
inductive Verdict (source : ConfigSource) (mustExist : Bool) : Prop where
  | accepted (cfg : SvnConfig) (parsed : source.parsed mustExist = .ok cfg)
  | refused (error : SvnError) (parsed : source.parsed mustExist = .error error)
      (meaning : error ≠ SvnError.undefinedBehaviour)
  | meaningless (parsed : source.parsed mustExist = .error SvnError.undefinedBehaviour)

theorem verdict (source : ConfigSource) (mustExist : Bool) : Verdict source mustExist := by
  cases parsed : source.parsed mustExist with
  | ok cfg => exact .accepted cfg parsed
  | error error =>
      by_cases meaning : error = SvnError.undefinedBehaviour
      · exact .meaningless (meaning ▸ parsed)
      · exact .refused error parsed meaning

/-- A refusal has one of the two codes of the parser. -/
theorem ConfigSource.Refused.code (refused : source.Refused mustExist) :
    ∃ error, source.parsed mustExist = .error error ∧
      (error.code = .malformedFile ∨ error.code = .badFilename) := by
  obtain ⟨error, parsed, meaning⟩ := refused
  refine ⟨error, parsed, ?_⟩
  obtain (meaningless | malformed) | badFilename := svnConfigParseFile_error parsed
  · exact absurd meaningless meaning
  · exact .inl malformed
  · exact .inr badFilename

theorem not_refused_of_ok (parsed : source.parsed mustExist = .ok cfg) : ¬ source.Refused mustExist := by
  rintro ⟨error, failed, _⟩
  rw [parsed] at failed
  cases failed

theorem svnConfigRead_accepted (cfgp : ConfigPointer) (parsed : source.parsed mustExist = .ok cfg) :
    svnConfigRead cfgp source mustExist = .ok ⟨none, .config cfg⟩ := by
  rw [svnConfigRead, parsed]

theorem svnConfigRead_refused (cfgp : ConfigPointer) (parsed : source.parsed mustExist = .error error)
    (meaning : error ≠ SvnError.undefinedBehaviour) :
    svnConfigRead cfgp source mustExist = .ok ⟨some error, cfgp⟩ := by
  rw [svnConfigRead, parsed]
  exact if_neg meaning

theorem svnConfigRead_meaningless (cfgp : ConfigPointer)
    (parsed : source.parsed mustExist = .error SvnError.undefinedBehaviour) :
    svnConfigRead cfgp source mustExist = .error SvnError.undefinedBehaviour := by
  rw [svnConfigRead, parsed]
  exact if_pos rfl

theorem svnConfigMerge_accepted (order : HashOrder) (cfg : SvnConfig) {mergeCfg : SvnConfig}
    (parsed : source.parsed mustExist = .ok mergeCfg) :
    svnConfigMerge order cfg source mustExist =
      .ok ⟨none, forEachOption mergeCallback cfg (visits order mergeCfg)⟩ := by
  rw [svnConfigMerge, svnConfigRead_accepted _ parsed, ok_bind]

theorem svnConfigMerge_refused (order : HashOrder) (cfg : SvnConfig)
    (parsed : source.parsed mustExist = .error error) (meaning : error ≠ SvnError.undefinedBehaviour) :
    svnConfigMerge order cfg source mustExist = .ok ⟨some error, cfg⟩ := by
  rw [svnConfigMerge, svnConfigRead_refused _ parsed meaning, ok_bind]

theorem svnConfigMerge_meaningless (order : HashOrder) (cfg : SvnConfig)
    (parsed : source.parsed mustExist = .error SvnError.undefinedBehaviour) :
    svnConfigMerge order cfg source mustExist = .error SvnError.undefinedBehaviour := by
  rw [svnConfigMerge, svnConfigRead_meaningless _ parsed, error_bind]

/-- A merge that fails changes nothing, and one that succeeds takes the file before the configuration. -/
structure MergesRight (cfg : SvnConfig) (source : ConfigSource) (mustExist : Bool)
    (merged : Returned SvnConfig) : Prop where
  failed : merged.error ≠ none → merged.state = cfg
  refused : merged.error ≠ none ↔ source.Refused mustExist
  union : merged.error = none → ∃ mergeCfg, source.parsed mustExist = .ok mergeCfg ∧
    ∀ name option, svnConfigGet merged.state name option =
      (svnConfigGet mergeCfg name option).or (svnConfigGet cfg name option)

/-- A file whose text has no meaning for the parser is not merged. -/
def MergedRight (cfg : SvnConfig) (source : ConfigSource) (mustExist : Bool) :
    Except SvnError (Returned SvnConfig) → Prop
  | .ok merged => MergesRight cfg source mustExist merged
  | .error error => error = SvnError.undefinedBehaviour ∧
      source.parsed mustExist = .error SvnError.undefinedBehaviour

theorem svnConfigMerge_mergedRight (order : HashOrder) (cfg : SvnConfig) (source : ConfigSource)
    (mustExist : Bool) : MergedRight cfg source mustExist (svnConfigMerge order cfg source mustExist) := by
  cases verdict source mustExist with
  | accepted mergeCfg parsed =>
      rw [svnConfigMerge_accepted order cfg parsed]
      refine ⟨fun failed => absurd rfl failed, ?_, fun _ => ⟨mergeCfg, parsed, merged_get order cfg mergeCfg⟩⟩
      exact iff_of_false (not_not.mpr rfl) (not_refused_of_ok parsed)
  | refused error parsed meaning =>
      rw [svnConfigMerge_refused order cfg parsed meaning]
      exact ⟨fun _ => rfl, iff_of_true (Option.some_ne_none _) ⟨error, parsed, meaning⟩, nofun⟩
  | meaningless parsed =>
      rw [svnConfigMerge_meaningless order cfg parsed]
      exact ⟨rfl, parsed⟩

end Verdicts

section Reading

variable {order : HashOrder} {cfgp : ConfigPointer} {sysFile usrFile : Option ConfigSource}

def Refused (file : Option ConfigSource) : Prop := ∃ source, file = some source ∧ source.Refused false

def definedValue (file : Option ConfigSource) (name option : Bytes) : Option Bytes :=
  match file with
  | none => none
  | some source =>
      match source.parsed false with
      | .ok cfg => svnConfigGet cfg name option
      | .error _ => none

/-- An error stands for a refused file, and without one the user's values come before those of the
system. -/
def ReadsBoth (sysFile usrFile : Option ConfigSource) (result : Except SvnError (Returned ConfigPointer)) :
    Prop :=
  ∃ outcome, result = .ok outcome ∧ (outcome.error ≠ none ↔ Refused sysFile ∨ Refused usrFile) ∧
    (outcome.error = none → ∃ cfg, outcome.state = .config cfg ∧ ∀ name option,
      svnConfigGet cfg name option =
        (definedValue usrFile name option).or (definedValue sysFile name option))

def Meaningful (file : Option ConfigSource) : Prop :=
  ∀ source, file = some source → source.parsed false ≠ .error SvnError.undefinedBehaviour

/-- What the two files, and the pointer before, have to be. -/
structure Readable (cfgp : ConfigPointer) (sysFile usrFile : Option ConfigSource) : Prop where
  known : sysFile ≠ none ∨ usrFile ≠ none
  system : Meaningful sysFile
  user : Meaningful usrFile
  refused : Refused sysFile → (∃ cfg, cfgp = .config cfg) ∧ Refused usrFile

variable {source : ConfigSource} {cfg : SvnConfig}

@[simp] theorem not_refused_none : ¬ Refused none := by
  rintro ⟨source, isSource, _⟩
  cases isSource

@[simp] theorem refused_some : Refused (some source) ↔ source.Refused false := by
  constructor
  · rintro ⟨other, isSource, refused⟩
    cases isSource
    exact refused
  · exact fun refused => ⟨source, rfl, refused⟩

@[simp] theorem meaningful_none : Meaningful none := nofun

@[simp] theorem meaningful_some :
    Meaningful (some source) ↔ source.parsed false ≠ .error SvnError.undefinedBehaviour := by
  constructor
  · exact fun meaningful => meaningful source rfl
  · intro meaningful other isSource
    cases isSource
    exact meaningful

theorem definedValue_accepted (parsed : source.parsed false = .ok cfg) (name option : Bytes) :
    definedValue (some source) name option = svnConfigGet cfg name option := by
  rw [definedValue, parsed]

/-- Only an outcome can be what it should be. -/
theorem readsBoth_ok (outcome : Returned ConfigPointer) : ReadsBoth sysFile usrFile (.ok outcome) ↔
    (outcome.error ≠ none ↔ Refused sysFile ∨ Refused usrFile) ∧
      (outcome.error = none → ∃ cfg, outcome.state = .config cfg ∧ ∀ name option,
        svnConfigGet cfg name option =
          (definedValue usrFile name option).or (definedValue sysFile name option)) := by
  constructor
  · rintro ⟨_, same, both⟩
    cases same
    exact both
  · exact fun both => ⟨outcome, rfl, both⟩

theorem not_readsBoth_error (error : SvnError) : ¬ ReadsBoth sysFile usrFile (.error error) := by
  rintro ⟨_, same, _⟩
  cases same

section Steps

variable {system : ConfigPointer × Bool} {state : ConfigPointer} {redConfig : Bool} {error : SvnError}

theorem readAll_of_user (isSystem : readSystem cfgp sysFile = .ok system)
    (isUser : readUser order system.1 system.2 usrFile = .ok ⟨none, (state, redConfig)⟩) :
    readAll order cfgp sysFile usrFile = .ok ⟨none, if redConfig then state else .null⟩ := by
  rw [readAll, isSystem, ok_bind, isUser, ok_bind]

theorem readAll_of_failed (isSystem : readSystem cfgp sysFile = .ok system)
    (isUser : readUser order system.1 system.2 usrFile = .ok ⟨some error, (state, redConfig)⟩) :
    readAll order cfgp sysFile usrFile = .ok ⟨some error, state⟩ := by
  rw [readAll, isSystem, ok_bind, isUser, ok_bind]

theorem readAll_of_meaningless (isSystem : readSystem cfgp sysFile = .ok system)
    (isUser : readUser order system.1 system.2 usrFile = .error error) :
    readAll order cfgp sysFile usrFile = .error error := by
  rw [readAll, isSystem, ok_bind, isUser, error_bind]

end Steps

theorem readAll_withoutSystem (order : HashOrder) (cfgp : ConfigPointer) (usrFile : Option ConfigSource) :
    ReadsBoth none usrFile (readAll order cfgp none usrFile) ↔ Readable cfgp none usrFile := by
  have isSystem : readSystem cfgp none = .ok (cfgp, false) := rfl
  cases usrFile with
  | none =>
      refine iff_of_false ?_ fun readable => readable.known.elim (absurd rfl) (absurd rfl)
      rw [readAll_of_user isSystem rfl, readsBoth_ok]
      rintro ⟨_, isConfig⟩
      obtain ⟨cfg, same, _⟩ := isConfig rfl
      cases same
  | some source =>
      have isUser : readUser order cfgp false (some source) = svnConfigRead cfgp source false >>= fun read =>
          .ok ⟨read.error, (read.state, true)⟩ := rfl
      cases verdict source false with
      | accepted cfg parsed =>
          rw [svnConfigRead_accepted cfgp parsed, ok_bind] at isUser
          rw [readAll_of_user isSystem isUser, readsBoth_ok]
          refine iff_of_true ⟨?_, fun _ => ⟨cfg, rfl, fun name option => ?_⟩⟩ ⟨.inr nofun, ?_, ?_, ?_⟩
          · simp [not_refused_of_ok parsed]
          · rw [definedValue_accepted parsed, definedValue, Option.or_none]
          · exact meaningful_none
          · simp [parsed]
          · simp
      | refused error parsed meaning =>
          have refused : source.Refused false := ⟨error, parsed, meaning⟩
          rw [svnConfigRead_refused cfgp parsed meaning, ok_bind] at isUser
          rw [readAll_of_failed isSystem isUser, readsBoth_ok]
          refine iff_of_true ⟨?_, nofun⟩ ⟨.inr nofun, ?_, ?_, ?_⟩
          · simp [refused]
          · exact meaningful_none
          · simp [parsed, meaning]
          · simp
      | meaningless parsed =>
          rw [svnConfigRead_meaningless cfgp parsed, error_bind] at isUser
          rw [readAll_of_meaningless isSystem isUser]
          refine iff_of_false (not_readsBoth_error _) fun readable => ?_
          exact meaningful_some.mp readable.user parsed

/-- The user's file is merged into a configuration. -/
theorem readUser_merged (order : HashOrder) (cfg : SvnConfig) (source : ConfigSource) :
    readUser order (.config cfg) true (some source) = svnConfigMerge order cfg source false >>= fun merged =>
      .ok ⟨merged.error, (.config merged.state, true)⟩ := rfl

theorem readAll_afterSystem (order : HashOrder) (cfgp : ConfigPointer) {sysCfg : SvnConfig}
    (parsed : source.parsed false = .ok sysCfg) (usrFile : Option ConfigSource) :
    ReadsBoth (some source) usrFile (readAll order cfgp (some source) usrFile) ↔
      Readable cfgp (some source) usrFile := by
  have isSystem : readSystem cfgp (some source) = .ok (.config sysCfg, true) := by
    rw [readSystem, svnConfigRead_accepted cfgp parsed, ok_bind]
  have accepted := not_refused_of_ok parsed
  have meaningful : Meaningful (some source) := by simp [parsed]
  have excused : Refused (some source) → (∃ cfg, cfgp = .config cfg) ∧ Refused usrFile :=
    fun refused => absurd (refused_some.mp refused) accepted
  cases usrFile with
  | none =>
      rw [readAll_of_user isSystem rfl, readsBoth_ok]
      refine iff_of_true ⟨?_, fun _ => ⟨sysCfg, rfl, fun name option => ?_⟩⟩
        ⟨.inl nofun, meaningful, meaningful_none, excused⟩
      · simp [accepted]
      · rw [definedValue_accepted parsed, definedValue, Option.none_or]
  | some user =>
      have isUser := readUser_merged order sysCfg user
      cases verdict user false with
      | accepted usrCfg isParsed =>
          rw [svnConfigMerge_accepted order sysCfg isParsed, ok_bind] at isUser
          rw [readAll_of_user isSystem isUser, readsBoth_ok]
          refine iff_of_true ⟨?_, fun _ => ⟨_, rfl, fun name option => ?_⟩⟩
            ⟨.inl nofun, meaningful, ?_, excused⟩
          · simp [accepted, not_refused_of_ok isParsed]
          · rw [definedValue_accepted parsed, definedValue_accepted isParsed, merged_get]
          · simp [isParsed]
      | refused error isParsed meaning =>
          have refused : user.Refused false := ⟨error, isParsed, meaning⟩
          rw [svnConfigMerge_refused order sysCfg isParsed meaning, ok_bind] at isUser
          rw [readAll_of_failed isSystem isUser, readsBoth_ok]
          refine iff_of_true ⟨?_, nofun⟩ ⟨.inl nofun, meaningful, ?_, excused⟩
          · simp [refused]
          · simp [isParsed, meaning]
      | meaningless isParsed =>
          rw [svnConfigMerge_meaningless order sysCfg isParsed, error_bind] at isUser
          rw [readAll_of_meaningless isSystem isUser]
          refine iff_of_false (not_readsBoth_error _) fun readable => ?_
          exact meaningful_some.mp readable.user isParsed

/-- The pointer is what it was before the first read. -/
theorem readAll_afterRefused (order : HashOrder) (cfgp : ConfigPointer) {error : SvnError}
    (parsed : source.parsed false = .error error) (meaning : error ≠ SvnError.undefinedBehaviour)
    (usrFile : Option ConfigSource) :
    ReadsBoth (some source) usrFile (readAll order cfgp (some source) usrFile) ↔
      Readable cfgp (some source) usrFile := by
  have isSystem : readSystem cfgp (some source) = .ok (cfgp, true) := by
    rw [readSystem, svnConfigRead_refused cfgp parsed meaning, ok_bind]
  have refused : Refused (some source) := refused_some.mpr ⟨error, parsed, meaning⟩
  have meaningful : Meaningful (some source) := by simp [parsed, meaning]
  cases usrFile with
  | none =>
      rw [readAll_of_user isSystem rfl, readsBoth_ok]
      refine iff_of_false ?_ fun readable => not_refused_none (readable.refused refused).2
      exact fun both => both.1.mpr (.inl refused) rfl
  | some user =>
      by_cases held : ∃ cfg, cfgp = .config cfg
      · obtain ⟨cfg, rfl⟩ := held
        have isUser := readUser_merged order cfg user
        cases verdict user false with
        | accepted usrCfg isParsed =>
            rw [svnConfigMerge_accepted order cfg isParsed, ok_bind] at isUser
            rw [readAll_of_user isSystem isUser, readsBoth_ok]
            refine iff_of_false ?_ fun readable => ?_
            · exact fun both => both.1.mpr (.inl refused) rfl
            · exact not_refused_of_ok isParsed (refused_some.mp (readable.refused refused).2)
        | refused error isParsed isMeaning =>
            have isRefused : Refused (some user) := refused_some.mpr ⟨error, isParsed, isMeaning⟩
            rw [svnConfigMerge_refused order cfg isParsed isMeaning, ok_bind] at isUser
            rw [readAll_of_failed isSystem isUser, readsBoth_ok]
            refine iff_of_true ⟨iff_of_true (Option.some_ne_none _) (.inl refused), nofun⟩
              ⟨.inl nofun, meaningful, ?_, fun _ => ⟨⟨cfg, rfl⟩, isRefused⟩⟩
            simp [isParsed, isMeaning]
        | meaningless isParsed =>
            rw [svnConfigMerge_meaningless order cfg isParsed, error_bind] at isUser
            rw [readAll_of_meaningless isSystem isUser]
            refine iff_of_false (not_readsBoth_error _) fun readable => ?_
            exact meaningful_some.mp readable.user isParsed
      · have isUser : readUser order cfgp true (some user) = .error SvnError.undefinedBehaviour := by
          cases cfgp with
          | unset => rfl
          | null => rfl
          | config cfg => exact absurd ⟨cfg, rfl⟩ held
        rw [readAll_of_meaningless isSystem isUser]
        exact iff_of_false (not_readsBoth_error _) fun readable => held (readable.refused refused).1

theorem readAll_iff (order : HashOrder) (cfgp : ConfigPointer) (sysFile usrFile : Option ConfigSource) :
    ReadsBoth sysFile usrFile (readAll order cfgp sysFile usrFile) ↔ Readable cfgp sysFile usrFile := by
  cases sysFile with
  | none => exact readAll_withoutSystem order cfgp usrFile
  | some source =>
      cases verdict source false with
      | accepted sysCfg parsed => exact readAll_afterSystem order cfgp parsed usrFile
      | refused error parsed meaning => exact readAll_afterRefused order cfgp parsed meaning usrFile
      | meaningless parsed =>
          have failed : readAll order cfgp (some source) usrFile = .error SvnError.undefinedBehaviour := by
            rw [readAll, readSystem, svnConfigRead_meaningless cfgp parsed, error_bind, error_bind]
          rw [failed]
          refine iff_of_false (not_readsBoth_error _) fun readable => ?_
          exact meaningful_some.mp readable.system parsed

/-- The error of a malformed system file is lost, and the pointer is used all the same. -/
theorem configurations_read_and_merged (order : HashOrder) (cfgp : ConfigPointer)
    (sysFile usrFile : Option ConfigSource) (cfg : SvnConfig) (source : ConfigSource) (mustExist : Bool) :
    (ReadsBoth sysFile usrFile (readAll order cfgp sysFile usrFile) ↔ Readable cfgp sysFile usrFile) ∧
      MergedRight cfg source mustExist (svnConfigMerge order cfg source mustExist) :=
  ⟨readAll_iff order cfgp sysFile usrFile, svnConfigMerge_mergedRight order cfg source mustExist⟩

def tableOrder : HashOrder := ⟨id, fun _ => id, fun _ => List.Perm.refl _, fun _ _ => List.Perm.refl _⟩

theorem configurations_malformedSystem :
    ¬ ReadsBoth (some ⟨"/etc/subversion/proxies", .contents [97]⟩) (some ⟨"/home/user/proxies", .contents []⟩)
      (readAll tableOrder .unset (some ⟨"/etc/subversion/proxies", .contents [97]⟩)
        (some ⟨"/home/user/proxies", .contents []⟩)) := by
  have failed : readAll tableOrder .unset (some ⟨"/etc/subversion/proxies", .contents [97]⟩)
      (some ⟨"/home/user/proxies", .contents []⟩) = .error SvnError.undefinedBehaviour := rfl
  rw [failed]
  exact not_readsBoth_error _

end Reading

end Subversion.Subr
