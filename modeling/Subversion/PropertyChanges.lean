/-
This file shows that both computations of property changes list each difference once.
-/

import Subversion.Lib.MapChanges
import Subversion.Repos.UpdateDelta
import Subversion.Wc.Props

namespace Subversion

open Delta Lib Repos Wc

section WorkingCopy

variable {localprops baseprops : PropHash}

/-- The events, as changes of a map. -/
def eventPair (event : PropChange) : Bytes × Option Bytes := (event.name, event.value)

/-- What the first loop does with a base property. -/
def baseChange (localprops : PropHash) (entry : Σ _ : Bytes, Bytes) : Option (Bytes × Option Bytes) :=
  if localprops.lookup entry.1 = some entry.2 then none else some (entry.1, localprops.lookup entry.1)

/-- What the second loop does with a local property. -/
def localChange (baseprops : PropHash) (entry : Σ _ : Bytes, Bytes) : Option (Bytes × Option Bytes) :=
  if baseprops.lookup entry.1 = none then some (entry.1, some entry.2) else none

theorem getLocalPropchanges_pairs (localprops baseprops : PropHash) :
    (getLocalPropchanges localprops baseprops).map eventPair =
      baseprops.entries.filterMap (baseChange localprops) ++
        localprops.entries.filterMap (localChange baseprops) := by
  rw [getLocalPropchanges, List.map_append, List.map_filterMap, List.map_filterMap]
  congr 1
  · apply List.filterMap_congr
    intro entry _
    rw [baseChange]
    cases localprops.lookup entry.1 with
    | none => rfl
    | some value =>
        simp only [Option.some.injEq, eq_comm]
        split <;> rfl
  · apply List.filterMap_congr
    intro entry _
    rw [localChange]
    cases baseprops.lookup entry.1 with
    | none => rfl
    | some value => rfl

theorem mem_entries_iff {hash : PropHash} {name value : Bytes} :
    (⟨name, value⟩ : Σ _ : Bytes, Bytes) ∈ hash.entries ↔ hash.lookup name = some value :=
  AList.mem_lookup_iff.symm

/-- Base properties are looked up locally, and local ones that are new are added. -/
theorem getLocalPropchanges_exact (localprops baseprops : PropHash) :
    Exact (fun name => baseprops.lookup name) (fun name => localprops.lookup name)
      ((getLocalPropchanges localprops baseprops).map eventPair) := by
  rw [getLocalPropchanges_pairs]
  refine @Exact.append _ _ _ _ _ _ (fun name => baseprops.lookup name ≠ none) ?_ ?_ ?_ ?_
  · have distinct : (baseprops.entries.map Sigma.fst).Nodup := baseprops.nodupKeys
    refine nodup_filterMap_fst (fun entry made isMade => ?_) distinct
    rw [baseChange] at isMade
    split at isMade
    · cases isMade
    · cases isMade
      rfl
  · have distinct : (localprops.entries.map Sigma.fst).Nodup := localprops.nodupKeys
    refine nodup_filterMap_fst (fun entry made isMade => ?_) distinct
    rw [localChange] at isMade
    split at isMade
    · cases isMade
      rfl
    · cases isMade
  · intro name value
    rw [List.mem_filterMap]
    constructor
    · rintro ⟨⟨key, old⟩, member, made⟩
      have found := mem_entries_iff.mp member
      rw [baseChange] at made
      split at made
      case isTrue => cases made
      case isFalse differ =>
        cases made
        refine ⟨?_, ?_, rfl⟩
        · rw [found]
          exact nofun
        · rw [found]
          exact Ne.symm differ
    · rintro ⟨isThere, differ, rfl⟩
      obtain ⟨old, found⟩ := Option.ne_none_iff_exists'.mp isThere
      refine ⟨⟨name, old⟩, mem_entries_iff.mpr found, ?_⟩
      rw [found] at differ
      exact if_neg (Ne.symm differ)
  · intro name value
    rw [List.mem_filterMap]
    constructor
    · rintro ⟨⟨key, new⟩, member, made⟩
      have found := mem_entries_iff.mp member
      rw [localChange] at made
      split at made
      case isTrue absent =>
        cases made
        refine ⟨fun isThere => isThere absent, ?_, found.symm⟩
        rw [absent, found]
        exact nofun
      case isFalse => cases made
    · rintro ⟨absent, differ, rfl⟩
      have gone := not_not.mp absent
      rw [gone] at differ
      obtain ⟨new, found⟩ := Option.ne_none_iff_exists'.mp (Ne.symm differ)
      refine ⟨⟨name, new⟩, mem_entries_iff.mpr found, ?_⟩
      rw [found]
      exact if_pos gone

end WorkingCopy

section Repository

variable {c : Context} {source : Option Bytes} {target : Bytes} {steps : List Step}
  {change : Bytes → Option Bytes → EditorCall}

/-- The properties that a path has under one of the roots. Without a path there are none. -/
def Holds (c : Context) (side : Side) : Option Bytes → (Bytes → Option Bytes) → Prop
  | none, props => props = fun _ => none
  | some path, props => ∃ node, c.opened side path = .ok node ∧ props = (c.store.props node.propKey).value

/-- The changes are made by calls, after the paths were looked up. -/
def MadeBy (change : Bytes → Option Bytes → EditorCall) (changes : List (Bytes × Option Bytes))
    (steps : List Step) : Prop :=
  ∃ accesses : List (Side × Bytes),
    steps = (accesses.map fun access => .access access.1 access.2) ++
      changes.map fun made => .call (change made.1 made.2)

theorem nodeProplist_ok {side : Side} {path : Bytes} {props : List (Bytes × Bytes)}
    (read : nodeProplist c side path = .ok props) :
    ∃ node, c.opened side path = .ok node ∧ props = (c.store.props node.propKey).list := by
  obtain ⟨node, opened, rest⟩ := bind_eq_ok read
  exact ⟨node, opened, (Except.ok.inj rest).symm⟩

/-- If the keys of the properties are the same, nothing is compared, and there is nothing to change. -/
theorem deltaProplists_exact (done : deltaProplists c source target change = .ok steps) :
    ∃ old new changes, Holds c .source source old ∧ Holds c .target (some target) new ∧
      MadeBy change changes steps ∧ Exact old new changes := by
  cases source with
  | none =>
      obtain ⟨targetProps, read, rest⟩ := bind_eq_ok done
      obtain ⟨node, opened, rfl⟩ := nodeProplist_ok read
      cases rest
      refine ⟨_, _, propChanges c none target [] (c.store.props node.propKey).list, rfl,
        ⟨node, opened, rfl⟩, ⟨[(.target, target)], ?_⟩, ?_⟩
      · rw [changeProps_eq]
        rfl
      · exact propChanges_exact c none target ⟨[], List.nodup_nil⟩ (c.store.props node.propKey)
  | some path =>
      obtain ⟨changed, compared, rest⟩ := bind_eq_ok done
      obtain ⟨targetNode, targetOpened, later⟩ := bind_eq_ok compared
      obtain ⟨sourceNode, sourceOpened, same⟩ := bind_eq_ok later
      obtain rfl := Except.ok.inj same
      by_cases differ : targetNode.propKey ≠ sourceNode.propKey
      · rw [if_pos (decide_eq_true differ)] at rest
        obtain ⟨sourceProps, sourceRead, more⟩ := bind_eq_ok rest
        obtain ⟨targetProps, targetRead, final⟩ := bind_eq_ok more
        obtain ⟨node, opened, rfl⟩ := nodeProplist_ok sourceRead
        obtain ⟨node', opened', rfl⟩ := nodeProplist_ok targetRead
        cases final
        refine ⟨_, _, propChanges c (some path) target (c.store.props node.propKey).list
          (c.store.props node'.propKey).list, ⟨node, opened, rfl⟩, ⟨node', opened', rfl⟩,
          ⟨[(.target, target), (.source, path)], ?_⟩, propChanges_exact c (some path) target _ _⟩
        rw [changeProps_eq]
        rfl
      · rw [if_neg (by rw [decide_eq_true_eq]; exact differ)] at rest
        cases rest
        have sameProps := congrArg (fun key => (c.store.props key).value) (not_not.mp differ)
        refine ⟨_, _, [], ⟨sourceNode, sourceOpened, rfl⟩, ⟨targetNode, targetOpened, sameProps.symm⟩,
          ⟨[(.target, target), (.source, path)], rfl⟩, Exact.refl _⟩

end Repository

/-- Both computations describe the way from the first hash to the second. -/
theorem propertyChanges_describe (localprops baseprops : PropHash) {c : Context} {source : Option Bytes}
    {target : Bytes} {change : Bytes → Option Bytes → EditorCall} {steps : List Step}
    (done : deltaProplists c source target change = .ok steps) :
    Describes (fun name => baseprops.lookup name) (fun name => localprops.lookup name)
        ((getLocalPropchanges localprops baseprops).map eventPair) ∧
      ∃ old new changes, Holds c .source source old ∧ Holds c .target (some target) new ∧
        MadeBy change changes steps ∧ Describes old new changes := by
  refine ⟨(getLocalPropchanges_exact localprops baseprops).describes, ?_⟩
  obtain ⟨old, new, changes, isOld, isNew, made, exact⟩ := deltaProplists_exact done
  exact ⟨old, new, changes, isOld, isNew, made, exact.describes⟩

/-- One property is modified, one deleted and one created. -/
def changedRoot : Context where
  store := ⟨fun key => if key = [1] then ⟨[([97], [120]), ([98], [121])], by decide⟩
    else ⟨[([97], [122]), ([99], [121])], by decide⟩, fun _ => ⟨[], by decide⟩⟩
  fsPath := "db"
  source := ⟨.revision 1, .dir [0, 1] [1] []⟩
  sourceRevDiffs := none
  target := ⟨.revision 2, .dir [0, 2] [2] []⟩
  textDeltas := true
  recurse := true
  order := listedOrder

theorem propertyChanges_describe_root :
    Describes (fun name => (∅ : PropHash).lookup name) (fun name => (∅ : PropHash).lookup name)
        ((getLocalPropchanges ∅ ∅).map eventPair) ∧
      ∃ old new changes, Holds changedRoot .source (some []) old ∧ Holds changedRoot .target (some []) new ∧
        MadeBy (.changeDirProp 0) changes [.access .target [], .access .source [],
          .call (.changeDirProp 0 [97] (some [122])), .call (.changeDirProp 0 [99] (some [121])),
          .call (.changeDirProp 0 [98] none)] ∧ Describes old new changes := by
  refine propertyChanges_describe ∅ ∅ ?_
  rfl

end Subversion
