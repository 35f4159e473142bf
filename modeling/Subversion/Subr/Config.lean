/-
This file models configurations, whose sections and options are found whatever the case of their names.
-/

import Mathlib.Data.List.AList
import Subversion.Delta.Window

namespace Subversion.Subr

open Delta

def toLower (byte : UInt8) : UInt8 := if 65 ≤ byte.toNat ∧ byte.toNat ≤ 90 then byte + 32 else byte

def makeHashKey (key : Bytes) : Bytes := key.map toLower

/-- An option keeps the name with which it was made. -/
structure CfgOption where
  name : Bytes
  value : Bytes
  deriving DecidableEq, Repr

structure CfgSection where
  name : Bytes
  options : AList fun _ : Bytes => CfgOption
  keyed : ∀ key option, options.lookup key = some option → makeHashKey option.name = key

structure SvnConfig where
  sections : AList fun _ : Bytes => CfgSection
  keyed : ∀ key entry, sections.lookup key = some entry → makeHashKey entry.name = key

def CfgSection.empty (name : Bytes) : CfgSection := ⟨name, ∅, fun _ _ found => nomatch found⟩

def SvnConfig.empty : SvnConfig := ⟨∅, fun _ _ found => nomatch found⟩

def findOption (cfg : SvnConfig) (name option : Bytes) : Option CfgOption :=
  (cfg.sections.lookup (makeHashKey name)).bind fun entry => entry.options.lookup (makeHashKey option)

/-- The answer is `none` where the default value is taken. -/
def svnConfigGet (cfg : SvnConfig) (name option : Bytes) : Option Bytes :=
  (findOption cfg name option).map CfgOption.value

/-- The values under the keys of their section and of their option. -/
def SvnConfig.view (cfg : SvnConfig) (key : Bytes × Bytes) : Option Bytes :=
  (cfg.sections.lookup key.1).bind fun entry => (entry.options.lookup key.2).map CfgOption.value

theorem svnConfigGet_view (cfg : SvnConfig) (name option : Bytes) :
    svnConfigGet cfg name option = cfg.view (makeHashKey name, makeHashKey option) := by
  rw [svnConfigGet, findOption, Option.map_bind]
  rfl

section Setting

variable {cfg : SvnConfig} {entry : CfgSection} {name option value : Bytes}

/-- An option that is there gets the value, or a new one is made. -/
def CfgSection.optionFor (entry : CfgSection) (option value : Bytes) : CfgOption :=
  match entry.options.lookup (makeHashKey option) with
  | some found => { found with value := value }
  | none => ⟨option, value⟩

theorem CfgSection.optionFor_key (entry : CfgSection) (option value : Bytes) :
    makeHashKey (entry.optionFor option value).name = makeHashKey option := by
  rw [optionFor]
  split
  case h_1 found isThere =>
    have key := entry.keyed _ found isThere
    exact key
  case h_2 => rfl

theorem CfgSection.optionFor_value (entry : CfgSection) (option value : Bytes) :
    (entry.optionFor option value).value = value := by
  rw [optionFor]
  split <;> rfl

def CfgSection.set (entry : CfgSection) (option value : Bytes) : CfgSection where
  name := entry.name
  options := entry.options.insert (makeHashKey option) (entry.optionFor option value)
  keyed := by
    intro key found isThere
    by_cases same : key = makeHashKey option
    · rw [same, AList.lookup_insert] at isThere
      cases isThere
      rw [same, entry.optionFor_key]
    · rw [AList.lookup_insert_ne same] at isThere
      exact entry.keyed key found isThere

def SvnConfig.sectionFor (cfg : SvnConfig) (name : Bytes) : CfgSection :=
  (cfg.sections.lookup (makeHashKey name)).getD (.empty name)

theorem SvnConfig.sectionFor_key (cfg : SvnConfig) (name : Bytes) :
    makeHashKey (cfg.sectionFor name).name = makeHashKey name := by
  rw [sectionFor]
  cases isThere : cfg.sections.lookup (makeHashKey name) with
  | none => rfl
  | some entry => exact cfg.keyed _ _ isThere

def svnConfigSet (cfg : SvnConfig) (name option value : Bytes) : SvnConfig where
  sections := cfg.sections.insert (makeHashKey name) ((cfg.sectionFor name).set option value)
  keyed := by
    intro key found isThere
    by_cases same : key = makeHashKey name
    · rw [same, AList.lookup_insert] at isThere
      cases isThere
      rw [same]
      exact cfg.sectionFor_key name
    · rw [AList.lookup_insert_ne same] at isThere
      exact cfg.keyed key found isThere

theorem SvnConfig.view_set (cfg : SvnConfig) (name option value : Bytes) :
    (svnConfigSet cfg name option value).view =
      Function.update cfg.view (makeHashKey name, makeHashKey option) (some value) := by
  funext key
  rw [view, svnConfigSet]
  by_cases sameName : key.1 = makeHashKey name
  · rw [sameName, AList.lookup_insert, Option.bind_some, CfgSection.set]
    by_cases sameOption : key.2 = makeHashKey option
    · have same : key = (makeHashKey name, makeHashKey option) := Prod.ext sameName sameOption
      rw [same, Function.update_self, AList.lookup_insert, Option.map_some, CfgSection.optionFor_value]
    · have differ : key ≠ (makeHashKey name, makeHashKey option) :=
        fun same => sameOption (congrArg Prod.snd same)
      rw [Function.update_of_ne differ, AList.lookup_insert_ne sameOption, view, sameName,
        SvnConfig.sectionFor]
      cases cfg.sections.lookup (makeHashKey name) with
      | none => rfl
      | some entry => rfl
  · have differ : key ≠ (makeHashKey name, makeHashKey option) :=
      fun same => sameName (congrArg Prod.fst same)
    rw [Function.update_of_ne differ, AList.lookup_insert_ne sameName]
    rfl

/-- Both names are compared without their case. -/
theorem svnConfigGet_set (cfg : SvnConfig) (name option value name' option' : Bytes) :
    svnConfigGet (svnConfigSet cfg name option value) name' option' =
      if makeHashKey name' = makeHashKey name ∧ makeHashKey option' = makeHashKey option then some value
      else svnConfigGet cfg name' option' := by
  rw [svnConfigGet_view, svnConfigGet_view, SvnConfig.view_set, Function.update_apply]
  simp only [Prod.mk.injEq]

end Setting

end Subversion.Subr
