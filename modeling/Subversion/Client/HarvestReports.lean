/-
This file shows which items the search of a working copy reports, and what each of them carries.
-/

import Subversion.Client.Harvest

namespace Subversion.Client

open Delta Subr Wc

section Requirement

def Children.toList : Children → List (Bytes × Node)
  | .nil => []
  | .cons name node rest => (name, node) :: rest.toList

/-- The checks of the path succeed, there is no conflict, and the urls are no bare separators. -/
structure Found.Proper (found : Found) : Prop where
  kind : found.entry.kind = .file ∨ found.entry.kind = .dir
  conflicted : found.status.conflicted = .ok (false, false)
  textModified : ∃ modified, found.status.textModified = .ok modified
  propsModified : ∃ modified, found.status.propsModified = .ok modified
  url : found.entry.url ≠ some [separator]
  ownUrl : found.effective.url ≠ some [separator]
  copyfromUrl : found.effective.copyfromUrl ≠ some [separator]

mutual

/-- The entries of each directory have different names. -/
def Node.Proper : Node → Prop
  | .mk found children => found.Proper ∧ (children.toList.map Prod.fst).Nodup ∧ children.Proper

def Children.Proper : Children → Prop
  | .nil => True
  | .cons name node rest => IsComponent name ∧ node.Proper ∧ rest.Proper

end

structure Context.Proper (context : Context) : Prop where
  path : context.path ≠ [separator]
  url : context.url ≠ [separator]
  copyfromUrl : context.copyfromUrl ≠ some [separator]

/-- A child takes its own url, or else the one of its parent with its name. -/
def childOf (context : Context) (found : Found) (name : Bytes) (child : Found) : Context where
  path := addComponent context.path name
  url := child.entry.url.getD (addComponent (found.effective.url.getD context.url) name)
  copyfromUrl := (itemCopyfrom false context found).map (addComponent · name)
  addsOnly := itemAddsOnly false context found

/-- A deletion that is no part of a replacement, where deletions are looked for. -/
def plainDeletion (context : Context) (found : Found) : Bool :=
  !context.addsOnly && found.effective.schedule = .delete

/-- The place of an entry in the tree, and whether it is below a plain deletion. -/
inductive Located : Context → Node → Bool → Context → Found → Prop
  | root {context : Context} {found : Found} {children : Children} :
      Located context (.mk found children) false context found
  | child {context place : Context} {found spot : Found} {children : Children} {name : Bytes}
      {node : Node} {buried inside : Bool} (listed : (name, node) ∈ children.toList)
      (readable : found.hasEntries = true)
      (deeper : Located (childOf context found name node.found) node inside place spot)
      (buries : buried = (plainDeletion context found || inside)) :
      Located context (.mk found children) buried place spot

def Added (entry : Entry) : Prop := entry.schedule = .add ∨ entry.schedule = .replace

def Modified (found : Found) : Prop :=
  found.effective.kind = .file ∧ found.status.textModified = .ok true ∨
    found.status.propsModified = .ok true

/-- What has to be reported. In the children of an addition without history no deletions are looked for. -/
def NeedsCommit (context : Context) (found : Found) : Prop :=
  Added found.effective ∨ found.effective.schedule = .delete ∧ context.addsOnly = false ∨
    found.effective.copied = true ∧ found.effective.schedule = .normal ∨ Modified found

/-- What may be reported. -/
def Changed (found : Found) : Prop :=
  found.effective.schedule ≠ .normal ∨ found.effective.copied = true ∨ Modified found

/-- An item has the entry's own url, or else its parent's url with its name, and a copy has its source. -/
structure Carries (context : Context) (found : Found) (item : CommitItem) : Prop where
  kind : item.kind = found.effective.kind
  url : item.url = found.effective.url.getD context.url
  history : item.stateFlags.isCopy = true → Added found.effective →
    ∃ url, found.effective.copyfromUrl = some url ∧ item.copyfromUrl = some url ∧
      item.revision = found.effective.copyfromRev
  inherited : item.stateFlags.isCopy = true → ¬ Added found.effective →
    item.copyfromUrl = context.copyfromUrl

structure Reports (context : Context) (node : Node) (items : List CommitItem) : Prop where
  complete : ∀ place spot, Located context node false place spot → NeedsCommit place spot →
    ∃ item ∈ items, item.path = place.path
  sound : ∀ item ∈ items, ∃ place spot, Located context node false place spot ∧
    item.path = place.path ∧ Changed spot ∧ Carries place spot item
  once : (items.map CommitItem.path).Nodup
  buried : ∀ place spot, Located context node true place spot →
    ∀ item ∈ items, item.path ≠ place.path

end Requirement

section Items

variable {context : Context} {found : Found}

/-- What the search looks at to choose the flags at a place. -/
def harvestInput (context : Context) (found : Found) (textModified propsModified : Bool) : HarvestInput where
  kind := found.effective.kind
  schedule := found.effective.schedule
  copied := found.effective.copied
  hasCopyfromUrl := found.effective.copyfromUrl.isSome
  addsOnly := context.addsOnly
  copyMode := false
  textModified := textModified
  propsModified := propsModified

theorem localMods_eq (base : StateFlags) :
    localMods found base =
      if base.add = true then
        found.status.propsModified >>= fun propMods =>
          (if found.effective.kind = .file then
            if base.isCopy = true then found.status.textModified else .ok true
          else .ok false) >>= fun textMods =>
            .ok { base with textMods := textMods, propMods := propMods }
      else if base.delete = false then
        (if found.effective.kind = .file then found.status.textModified else .ok false) >>= fun textMods =>
          found.status.propsModified >>= fun propMods =>
            .ok { base with textMods := textMods, propMods := propMods }
      else .ok base := by
  rw [localMods]
  by_cases file : found.effective.kind = .file <;> by_cases isCopy : base.isCopy = true <;>
    simp only [file, isCopy, if_true, if_false] <;> rfl

/-- Modifications are looked for to the end where there is neither an addition nor a deletion. -/
theorem localMods_keeps {base flags : StateFlags} (mods : localMods found base = .ok flags) :
    flags.add = base.add ∧ flags.delete = base.delete ∧ flags.isCopy = base.isCopy ∧
      (base.add = false → base.delete = false →
        (flags.textMods = true ∨ flags.propMods = true ↔ Modified found)) := by
  rw [localMods_eq] at mods
  split at mods
  · next add =>
      obtain ⟨propMods, -, mods⟩ := bind_eq_ok mods
      obtain ⟨textMods, -, mods⟩ := bind_eq_ok mods
      cases mods
      exact ⟨rfl, rfl, rfl, fun noAdd => absurd (add.symm.trans noAdd) (by decide)⟩
  · split at mods
    · obtain ⟨textMods, isText, mods⟩ := bind_eq_ok mods
      obtain ⟨propMods, isProps, mods⟩ := bind_eq_ok mods
      cases mods
      refine ⟨rfl, rfl, rfl, fun _ _ => ?_⟩
      rw [Modified, isProps]
      by_cases file : found.effective.kind = .file
      · rw [if_pos file] at isText
        simp [file, isText]
      · rw [if_neg file] at isText
        cases isText
        simp [file]
    · next delete =>
        cases mods
        exact ⟨rfl, rfl, rfl, fun _ noDelete => absurd noDelete delete⟩

theorem changeFlags_isCopy (entry : Entry) (addsOnly : Bool)
    (isCopy : (changeFlags false entry addsOnly).isCopy = true) :
    (changeFlags false entry addsOnly).add = true := by
  simp only [changeFlags, Bool.or_eq_true, Bool.and_eq_true] at isCopy ⊢
  rcases isCopy with ⟨added, -⟩ | copied
  · exact .inl added
  · exact .inr copied

theorem needsCommit_iff_changeFlags :
    NeedsCommit context found ↔ (changeFlags false found.effective context.addsOnly).add = true ∨
      (changeFlags false found.effective context.addsOnly).delete = true ∨ Modified found := by
  rw [NeedsCommit, Added, changeFlags, scheduledAdd, copiedAdd]
  cases schedule : found.effective.schedule <;> simp [and_comm]

theorem stateFlags_eq_iff (flags : StateFlags) :
    flags = noStateFlags ↔ flags.add = false ∧ flags.delete = false ∧ flags.textMods = false ∧
      flags.propMods = false ∧ flags.isCopy = false := by
  obtain ⟨add, delete, textMods, propMods, isCopy⟩ := flags
  simp [noStateFlags]

/-- The modifications that are found give the flags that the entry needs. -/
theorem needsCommit_iff {flags : StateFlags}
    (mods : localMods found (changeFlags false found.effective context.addsOnly) = .ok flags) :
    flags ≠ noStateFlags ↔ NeedsCommit context found := by
  obtain ⟨add, delete, isCopy, modified⟩ := localMods_keeps mods
  have copyAdds := changeFlags_isCopy found.effective context.addsOnly
  rw [ne_eq, stateFlags_eq_iff, needsCommit_iff_changeFlags, add, delete, isCopy]
  by_cases added : (changeFlags false found.effective context.addsOnly).add = true
  · simp [added]
  · by_cases deleted : (changeFlags false found.effective context.addsOnly).delete = true
    · simp [deleted]
    · rw [Bool.not_eq_true] at added deleted
      have noCopy : (changeFlags false found.effective context.addsOnly).isCopy = false := by
        rw [← Bool.not_eq_true]
        exact fun copied => absurd (added.symm.trans (copyAdds copied)) (by decide)
      rw [← modified added deleted]
      simp only [added, deleted, noCopy, Bool.false_eq_true, false_or, true_and, and_true]
      cases flags.textMods <;> cases flags.propMods <;> simp

theorem localMods_eq_ok {textModified propsModified : Bool}
    (isText : found.status.textModified = .ok textModified)
    (isProps : found.status.propsModified = .ok propsModified) :
    localMods found (changeFlags false found.effective context.addsOnly) =
      .ok (harvestFlags (harvestInput context found textModified propsModified)) := by
  have flags : harvestFlags (harvestInput context found textModified propsModified) =
      { changeFlags false found.effective context.addsOnly with
        textMods :=
          if (changeFlags false found.effective context.addsOnly).add then
            found.effective.kind = .file &&
              (if (changeFlags false found.effective context.addsOnly).isCopy then textModified else true)
          else if !(changeFlags false found.effective context.addsOnly).delete then
            found.effective.kind = .file && textModified
          else false
        propMods :=
          if (changeFlags false found.effective context.addsOnly).add then propsModified
          else if !(changeFlags false found.effective context.addsOnly).delete then propsModified
          else false } := rfl
  have noMods : (changeFlags false found.effective context.addsOnly).textMods = false ∧
      (changeFlags false found.effective context.addsOnly).propMods = false := ⟨rfl, rfl⟩
  rw [flags, localMods, isText, isProps]
  generalize changeFlags false found.effective context.addsOnly = flags at noMods
  obtain ⟨add, delete, textMods, propMods, isCopy⟩ := flags
  obtain ⟨rfl, rfl⟩ := noMods
  by_cases file : found.effective.kind = .file <;> cases add <;> cases delete <;> cases isCopy <;>
    simp [file] <;> rfl

/-- An item is made where the checks succeed, and it carries the flags that were found. -/
theorem harvestItem_of_mods (kind : found.entry.kind = .file ∨ found.entry.kind = .dir)
    (conflicted : found.status.conflicted = .ok (false, false)) {flags : StateFlags}
    (mods : localMods found (changeFlags false found.effective context.addsOnly) = .ok flags) :
    harvestItem false context found = .ok {
      path := context.path
      kind := found.effective.kind
      url := found.effective.url.getD context.url
      revision := if (itemCopyfrom false context found).isSome then found.effective.copyfromRev
        else found.effective.revision
      copyfromUrl := itemCopyfrom false context found
      stateFlags := flags } := by
  have known : ¬ (found.entry.kind ≠ .file ∧ found.entry.kind ≠ .dir) := by
    rcases kind with kind | kind <;> simp [kind]
  rw [harvestItem, if_neg known, conflicted]
  change (localMods found (changeFlags false found.effective context.addsOnly) >>= _) = _
  rw [mods]
  rfl

/-- At a place where all checks succeed there is an item. -/
theorem harvestItem_eq_ok (proper : found.Proper) (context : Context) :
    ∃ textModified propsModified, found.status.textModified = .ok textModified ∧
      found.status.propsModified = .ok propsModified ∧
      harvestItem false context found = .ok {
        path := context.path
        kind := found.effective.kind
        url := found.effective.url.getD context.url
        revision := if (itemCopyfrom false context found).isSome then found.effective.copyfromRev
          else found.effective.revision
        copyfromUrl := itemCopyfrom false context found
        stateFlags := harvestFlags (harvestInput context found textModified propsModified) } := by
  obtain ⟨textModified, isText⟩ := proper.textModified
  obtain ⟨propsModified, isProps⟩ := proper.propsModified
  exact ⟨textModified, propsModified, isText, isProps,
    harvestItem_of_mods proper.kind proper.conflicted (localMods_eq_ok isText isProps)⟩

/-- There is something to commit just for the entries that need it. -/
theorem harvestFlags_ne_iff {textModified propsModified : Bool}
    (isText : found.status.textModified = .ok textModified)
    (isProps : found.status.propsModified = .ok propsModified) :
    harvestFlags (harvestInput context found textModified propsModified) ≠ noStateFlags ↔
      NeedsCommit context found :=
  needsCommit_iff (localMods_eq_ok isText isProps)

theorem NeedsCommit.changed (needs : NeedsCommit context found) : Changed found := by
  rcases needs with (add | replace) | ⟨delete, -⟩ | ⟨copied, -⟩ | modified
  · exact .inl (by simp [add])
  · exact .inl (by simp [replace])
  · exact .inl (by simp [delete])
  · exact .inr (.inl copied)
  · exact .inr (.inr modified)

/-- The source of an item that is a copy. -/
theorem itemCopyfrom_of_isCopy {textModified propsModified : Bool}
    (isCopy : (harvestFlags (harvestInput context found textModified propsModified)).isCopy = true) :
    (Added found.effective → ∃ url, found.effective.copyfromUrl = some url ∧
        itemCopyfrom false context found = some url) ∧
      (¬ Added found.effective → itemCopyfrom false context found = context.copyfromUrl) := by
  rw [Added, itemCopyfrom, copiedAdd, scheduledAdd]
  cases schedule : found.effective.schedule <;> cases source : found.effective.copyfromUrl <;>
    simp [harvestFlags, harvestInput, schedule, source] at isCopy ⊢ <;> simp [isCopy]

theorem itemAt_eq (proper : found.Proper) (context : Context) :
    (∀ item, itemAt false (context, found) = some item → item.path = context.path ∧
        NeedsCommit context found ∧ Carries context found item) ∧
      (NeedsCommit context found → ∃ item, itemAt false (context, found) = some item) := by
  obtain ⟨textModified, propsModified, isText, isProps, made⟩ := harvestItem_eq_ok proper context
  have needs : harvestFlags (harvestInput context found textModified propsModified) ≠ noStateFlags ↔
      NeedsCommit context found := harvestFlags_ne_iff isText isProps
  rw [itemAt, made]
  dsimp only
  constructor
  · intro item isItem
    split at isItem
    · cases isItem
    · next something =>
        cases isItem
        refine ⟨rfl, needs.mp something, rfl, rfl, ?_, ?_⟩
        · intro isCopy added
          obtain ⟨url, source, copyfrom⟩ := (itemCopyfrom_of_isCopy isCopy).1 added
          refine ⟨url, source, copyfrom, ?_⟩
          rw [copyfrom]
          rfl
        · exact fun isCopy notAdded => (itemCopyfrom_of_isCopy isCopy).2 notAdded
  · intro needed
    rw [if_neg (needs.mpr needed)]
    exact ⟨_, rfl⟩

end Items

section Buffers

variable {path name : Bytes}

/-- A buffer is what it was when the name is chopped off again. The root directory is not. -/
theorem chop_addComponent (notRoot : path ≠ [separator]) (valid : IsComponent name) :
    chop (name.length + 1) (addComponent path name) = path := by
  rw [chop, addComponent_eq path valid]
  by_cases empty : path = []
  · subst empty
    simp
  · rw [if_neg (by simp [empty, notRoot])]
    have length : (path ++ separator :: name).length - (name.length + 1) = path.length := by simp
    rw [length, List.take_left]

theorem suffix_addComponent (path : Bytes) (valid : IsComponent name) : name <:+ addComponent path name := by
  rw [addComponent_eq path valid]
  split
  · exact List.suffix_append path name
  · exact ⟨path ++ [separator], List.append_assoc _ _ _⟩

theorem addComponent_ne_separator (path : Bytes) (valid : IsComponent name) :
    addComponent path name ≠ [separator] := by
  intro same
  obtain ⟨byte, member⟩ := List.exists_mem_of_ne_nil name valid.1
  have isSeparator := (suffix_addComponent path valid).subset member
  rw [same, List.mem_singleton] at isSeparator
  exact valid.2 (isSeparator ▸ member)

theorem addComponent_ne_nil (path : Bytes) (valid : IsComponent name) : addComponent path name ≠ [] := by
  intro empty
  have suffix := suffix_addComponent path valid
  rw [empty, List.suffix_nil] at suffix
  exact valid.1 suffix

structure Buffers.Proper (buffers : Buffers) : Prop where
  fullPath : buffers.fullPath ≠ [separator]
  thisUrl : buffers.thisUrl ≠ [separator]
  thisCfUrl : buffers.thisCfUrl ≠ some [separator]

theorem chopBuffers_eq {buffers : Buffers} (proper : buffers.Proper) (valid : IsComponent name)
    (child : Found) : chopBuffers false buffers name child = buffers := by
  obtain ⟨fullPath, thisUrl, thisCfUrl⟩ := buffers
  rw [chopBuffers]
  congr 1
  · exact chop_addComponent proper.fullPath valid
  · split
    · exact chop_addComponent proper.thisUrl valid
    · rfl
  · cases thisCfUrl with
    | none => rfl
    | some url =>
        rw [Option.map_some, chop_addComponent (fun same => proper.thisCfUrl (congrArg some same)) valid]

end Buffers

section Places

theorem Children.Proper.node {name : Bytes} {node : Node} : ∀ {children : Children}, children.Proper →
    (name, node) ∈ children.toList → IsComponent name ∧ node.Proper
  | .nil, _, listed => absurd listed List.not_mem_nil
  | .cons _ _ _, proper, listed => by
      rw [Children.toList, List.mem_cons] at listed
      rcases listed with same | listed
      · cases same
        exact ⟨proper.1, proper.2.1⟩
      · exact proper.2.2.node listed

section Contexts

variable {context : Context} {found : Found} {name : Bytes}

theorem itemBuffers_proper (isContext : context.Proper) (proper : found.Proper) :
    (itemBuffers false context found).Proper := by
  refine ⟨isContext.path, ?_, ?_⟩
  · show found.effective.url.getD context.url ≠ [separator]
    cases own : found.effective.url with
    | none => exact isContext.url
    | some url => exact fun same => proper.ownUrl (own.trans (congrArg some same))
  · show itemCopyfrom false context found ≠ some [separator]
    rw [itemCopyfrom]
    split
    · exact isContext.copyfromUrl
    · split
      · exact proper.copyfromUrl
      · exact Option.some_ne_none _ |>.symm

theorem childContext_eq (context : Context) (found : Found) (name : Bytes) (child : Found) :
    childContext false (itemBuffers false context found) (itemAddsOnly false context found) name child =
      childOf context found name child := by
  rw [childContext, childOf]
  cases child.entry.url <;> rfl

theorem childContext_proper (buffers : Buffers) (addsOnly : Bool) (valid : IsComponent name)
    {child : Found} (childProper : child.Proper) : (childContext false buffers addsOnly name child).Proper := by
  rw [childContext]
  refine ⟨addComponent_ne_separator _ valid, ?_, ?_⟩
  · cases own : child.entry.url with
    | none => exact addComponent_ne_separator _ valid
    | some url => exact fun same => childProper.url (own.trans (congrArg some same))
  · cases buffers.thisCfUrl with
    | none => exact Option.some_ne_none _ |>.symm
    | some url => exact fun same => addComponent_ne_separator url valid (Option.some.inj same)

theorem entersEntries_eq (context : Context) (found : Found) :
    entersEntries false context found = (found.hasEntries && !plainDeletion context found) := by
  rw [entersEntries, changeFlags, plainDeletion, copiedAdd, scheduledAdd]
  cases found.effective.schedule <;> cases context.addsOnly <;> simp

end Contexts

theorem Node.Proper.found {node : Node} (proper : node.Proper) : node.found.Proper := by
  cases node with
  | mk found children => exact proper.1

theorem located_mk_iff {context place : Context} {found spot : Found} {children : Children} {buried : Bool} :
    Located context (.mk found children) buried place spot ↔
      (buried = false ∧ place = context ∧ spot = found) ∨
        (found.hasEntries = true ∧ ∃ child ∈ children.toList, ∃ inside,
          buried = (plainDeletion context found || inside) ∧
            Located (childOf context found child.1 child.2.found) child.2 inside place spot) := by
  constructor
  · intro located
    cases located with
    | root => exact .inl ⟨rfl, rfl, rfl⟩
    | child listed readable deeper buries => exact .inr ⟨readable, _, listed, _, buries, deeper⟩
  · rintro (⟨rfl, rfl, rfl⟩ | ⟨readable, child, listed, inside, buries, deeper⟩)
    · exact .root
    · exact .child listed readable deeper buries

mutual

/-- The search comes to the places that are not below a plain deletion. -/
theorem mem_searched_iff {context place : Context} {spot : Found} (isContext : context.Proper) (node : Node)
    (proper : node.Proper) :
    (place, spot) ∈ searched false context node ↔ Located context node false place spot := by
  cases node with
  | mk found children =>
      rw [searched, List.mem_cons, Prod.mk.injEq, located_mk_iff, entersEntries_eq]
      apply or_congr
      · simp
      · cases readable : found.hasEntries with
        | false => simp
        | true =>
            cases plain : plainDeletion context found with
            | true => simp
            | false =>
                simp only [Bool.not_false, Bool.and_true, if_true, Bool.false_or, true_and, exists_eq_left']
                rw [mem_searchedBelow_iff _ (itemBuffers_proper isContext proper.1) children proper.2.2]
                simp only [childContext_eq]

theorem mem_searchedBelow_iff {buffers : Buffers} {place : Context} {spot : Found} (addsOnly : Bool)
    (isBuffers : buffers.Proper) (children : Children) (proper : children.Proper) :
    (place, spot) ∈ searchedBelow false buffers addsOnly children ↔
      ∃ child ∈ children.toList,
        Located (childContext false buffers addsOnly child.1 child.2.found) child.2 false place spot := by
  cases children with
  | nil => simp [searchedBelow, Children.toList]
  | cons name node rest =>
      have isChild := childContext_proper buffers addsOnly proper.1 proper.2.1.found
      rw [searchedBelow, List.mem_append, chopBuffers_eq isBuffers proper.1,
        mem_searched_iff isChild node proper.2.1,
        mem_searchedBelow_iff addsOnly isBuffers rest proper.2.2, Children.toList]
      simp only [List.mem_cons, exists_eq_or_imp]

end

end Places

section Paths

/-- The path is the base, or it lies below it. -/
def Beneath (base path : Bytes) : Prop := ∃ rest, path = base ++ rest ∧ AfterComponent rest

theorem Beneath.refl (base : Bytes) : Beneath base base := ⟨[], (List.append_nil base).symm, .inl rfl⟩

theorem Beneath.of_child {base name path : Bytes} (notEmpty : base ≠ []) (notRoot : base ≠ [separator])
    (valid : IsComponent name) (beneath : Beneath (addComponent base name) path) : Beneath base path := by
  obtain ⟨rest, rfl, -⟩ := beneath
  rw [addComponent_eq base valid, if_neg (by simp [notEmpty, notRoot]), List.append_assoc, List.cons_append]
  exact ⟨_, rfl, .inr ⟨_, rfl⟩⟩

/-- A component ends where the next one begins. -/
theorem component_eq_of_append {name₁ name₂ rest₁ rest₂ : Bytes} (valid₁ : IsComponent name₁)
    (valid₂ : IsComponent name₂) (after₁ : AfterComponent rest₁) (after₂ : AfterComponent rest₂)
    (same : name₁ ++ rest₁ = name₂ ++ rest₂) : name₁ = name₂ := by
  have first {name rest : Bytes} (valid : IsComponent name) (after : AfterComponent rest) :
      (name ++ rest).takeWhile (· ≠ separator) = name := by
    have inside : ∀ byte ∈ name, decide (byte ≠ separator) = true := by
      intro byte member
      rw [decide_eq_true_eq]
      rintro rfl
      exact valid.2 member
    rw [List.takeWhile_append_of_pos inside]
    rcases after with rfl | ⟨more, rfl⟩ <;> simp
  rw [← first valid₁ after₁, same, first valid₂ after₂]

/-- Below different names of one directory there are different paths. -/
theorem beneath_children_eq {base name₁ name₂ path : Bytes} (valid₁ : IsComponent name₁)
    (valid₂ : IsComponent name₂) (beneath₁ : Beneath (addComponent base name₁) path)
    (beneath₂ : Beneath (addComponent base name₂) path) : name₁ = name₂ := by
  obtain ⟨rest₁, rfl, after₁⟩ := beneath₁
  obtain ⟨rest₂, same, after₂⟩ := beneath₂
  rw [addComponent_eq base valid₁, addComponent_eq base valid₂] at same
  refine component_eq_of_append valid₁ valid₂ after₁ after₂ ?_
  split at same
  · rwa [List.append_assoc, List.append_assoc, List.append_cancel_left_eq] at same
  · rw [List.append_assoc, List.append_assoc, List.append_cancel_left_eq, List.cons_append,
      List.cons_append] at same
    exact List.tail_eq_of_cons_eq same

theorem ne_of_beneath_child {base name path : Bytes} (valid : IsComponent name)
    (beneath : Beneath (addComponent base name) path) : path ≠ base := by
  obtain ⟨rest, rfl, -⟩ := beneath
  have positive := List.length_pos_iff.mpr valid.1
  intro same
  have lengths := congrArg List.length same
  rw [addComponent_eq base valid, List.length_append] at lengths
  split at lengths <;> simp at lengths <;> omega

/-- Places lie beneath the path at which the search begins. -/
theorem Located.beneath {context place : Context} {node : Node} {buried : Bool} {spot : Found}
    (located : Located context node buried place spot) (proper : node.Proper) (notEmpty : context.path ≠ [])
    (notRoot : context.path ≠ [separator]) : Beneath context.path place.path := by
  induction located with
  | root => exact .refl _
  | @child context place found spot children name node buried inside listed _ _ _ ih =>
      obtain ⟨valid, nodeProper⟩ := proper.2.2.node listed
      exact (ih nodeProper (addComponent_ne_nil _ valid) (addComponent_ne_separator _ valid)).of_child
        notEmpty notRoot valid

theorem Located.beneath_child {context place : Context} {base name : Bytes} {node : Node} {buried : Bool}
    {spot : Found} (located : Located context node buried place spot)
    (isChild : context.path = addComponent base name) (valid : IsComponent name) (proper : node.Proper) :
    Beneath (addComponent base name) place.path := by
  rw [← isChild]
  apply located.beneath proper
  · rw [isChild]
    exact addComponent_ne_nil _ valid
  · rw [isChild]
    exact addComponent_ne_separator _ valid

/-- A path tells whether its place is below a plain deletion. -/
theorem Located.buried_eq {context place₁ : Context} {node : Node} {buried₁ : Bool} {spot₁ : Found}
    (located₁ : Located context node buried₁ place₁ spot₁) (proper : node.Proper) :
    ∀ {buried₂ : Bool} {place₂ : Context} {spot₂ : Found}, Located context node buried₂ place₂ spot₂ →
      place₁.path = place₂.path → buried₁ = buried₂ := by
  induction located₁ with
  | root =>
      intro buried₂ place₂ spot₂ located₂ same
      cases located₂ with
      | root => rfl
      | child listed _ deeper _ =>
          obtain ⟨valid, nodeProper⟩ := proper.2.2.node listed
          exact absurd same.symm (ne_of_beneath_child valid (deeper.beneath_child rfl valid nodeProper))
  | @child context place found spot children name node buried inside listed readable deeper buries ih =>
      intro buried₂ place₂ spot₂ located₂ same
      obtain ⟨valid, nodeProper⟩ := proper.2.2.node listed
      have beneath := deeper.beneath_child rfl valid nodeProper
      cases located₂ with
      | root => exact absurd same (ne_of_beneath_child valid beneath)
      | child listed₂ _ deeper₂ buries₂ =>
          obtain ⟨valid₂, nodeProper₂⟩ := proper.2.2.node listed₂
          have beneath₂ := deeper₂.beneath_child rfl valid₂ nodeProper₂
          rw [← same] at beneath₂
          obtain rfl := beneath_children_eq valid valid₂ beneath beneath₂
          cases List.inj_on_of_nodup_map proper.2.1 listed listed₂ rfl
          rw [buries, buries₂, ih nodeProper deeper₂ same]

mutual

/-- The search comes to no path twice. -/
theorem searched_nodup {context : Context} (isContext : context.Proper) (node : Node) (proper : node.Proper) :
    ((searched false context node).map fun place => place.1.path).Nodup := by
  cases node with
  | mk found children =>
      rw [searched, List.map_cons, List.nodup_cons]
      have isBuffers := itemBuffers_proper isContext proper.1
      split
      · refine ⟨?_, searchedBelow_nodup _ isBuffers children proper.2.2 proper.2.1⟩
        intro member
        obtain ⟨place, isPlace, same⟩ := List.mem_map.mp member
        obtain ⟨child, listed, located⟩ :=
          (mem_searchedBelow_iff _ isBuffers children proper.2.2).mp isPlace
        obtain ⟨valid, nodeProper⟩ := proper.2.2.node listed
        rw [childContext_eq] at located
        exact ne_of_beneath_child valid (located.beneath_child rfl valid nodeProper) same
      · exact ⟨List.not_mem_nil, List.nodup_nil⟩

theorem searchedBelow_nodup {buffers : Buffers} (addsOnly : Bool) (isBuffers : buffers.Proper)
    (children : Children) (proper : children.Proper) (different : (children.toList.map Prod.fst).Nodup) :
    ((searchedBelow false buffers addsOnly children).map fun place => place.1.path).Nodup := by
  cases children with
  | nil => exact List.nodup_nil
  | cons name node rest =>
      have isChild := childContext_proper buffers addsOnly proper.1 proper.2.1.found
      rw [Children.toList, List.map_cons, List.nodup_cons] at different
      rw [searchedBelow, List.map_append, chopBuffers_eq isBuffers proper.1, List.nodup_append]
      refine ⟨searched_nodup isChild node proper.2.1,
        searchedBelow_nodup addsOnly isBuffers rest proper.2.2 different.2, ?_⟩
      rintro path here other there rfl
      obtain ⟨place₁, isPlace₁, rfl⟩ := List.mem_map.mp here
      obtain ⟨place₂, isPlace₂, same⟩ := List.mem_map.mp there
      have located₁ := (mem_searched_iff isChild node proper.2.1).mp isPlace₁
      obtain ⟨child, listed, located₂⟩ :=
        (mem_searchedBelow_iff addsOnly isBuffers rest proper.2.2).mp isPlace₂
      obtain ⟨valid, nodeProper⟩ := proper.2.2.node listed
      have beneath₂ := located₂.beneath_child rfl valid nodeProper
      rw [same] at beneath₂
      have sameName := beneath_children_eq proper.1 valid (located₁.beneath_child rfl proper.1 proper.2.1)
        beneath₂
      exact different.1 (List.mem_map.mpr ⟨child, listed, sameName.symm⟩)

end

end Paths

section Reported

variable {context place : Context} {node : Node} {spot : Found}

/-- The parts of a tree of which all is proper are proper. -/
theorem Located.proper {buried : Bool} (located : Located context node buried place spot)
    (proper : node.Proper) : spot.Proper := by
  induction located with
  | root => exact proper.1
  | child listed _ _ _ ih => exact ih (proper.2.2.node listed).2

theorem itemAt_path (proper : spot.Proper) {item : CommitItem} (isItem : itemAt false (place, spot) = some item) :
    item.path = place.path :=
  ((itemAt_eq proper place).1 item isItem).1

/-- The paths of the items are among the paths of the places, in their order. -/
theorem filterMap_itemAt_sublist (places : List (Context × Found))
    (proper : ∀ place ∈ places, place.2.Proper) :
    ((places.filterMap (itemAt false)).map CommitItem.path).Sublist (places.map fun place => place.1.path) := by
  induction places with
  | nil => exact .slnil
  | cons place places ih =>
      rw [List.forall_mem_cons] at proper
      rw [List.filterMap_cons, List.map_cons]
      cases made : itemAt false place with
      | none => exact (ih proper.2).cons _
      | some item =>
          rw [List.map_cons, itemAt_path proper.1 made]
          exact (ih proper.2).cons_cons _

/-- The items are as the drive of the commit expects them. -/
theorem harvested_of_itemAt (proper : spot.Proper)
    (kind : spot.effective.kind = .file ∨ spot.effective.kind = .dir) {item : CommitItem}
    (isItem : itemAt false (place, spot) = some item) : Harvested item := by
  obtain ⟨textModified, propsModified, -, -, made⟩ := harvestItem_eq_ok proper place
  rw [itemAt, made] at isItem
  dsimp only at isItem
  split at isItem
  · cases isItem
  · next something =>
      cases isItem
      exact ⟨harvestInput place spot textModified propsModified, rfl, kind, rfl, something⟩

section Replaced

def quietStatus (textModified : Bool) : Status := ⟨.ok (false, false), .ok textModified, .ok false⟩

/-- A directory with its own entry under the given schedule. -/
def plainDir (schedule : Schedule) : Found where
  entry := { allocEntry [100] with kind := .dir }
  thisDir := some { allocEntry thisDirName with
    kind := .dir
    revision := 3
    url := some [117]
    schedule := schedule }
  status := quietStatus false

def plainFile (name : Bytes) (schedule : Schedule) (textModified : Bool) : Found where
  entry := { allocEntry name with
    kind := .file
    revision := 3
    schedule := schedule }
  thisDir := none
  status := quietStatus textModified

/-- A directory with one file. -/
def oneFile (dir file : Found) : Node := .mk dir (.cons [102] (.mk file .nil) .nil)

def topContext : Context := ⟨[100], [117], none, false⟩

theorem oneFile_proper {dir file : Found} (isDir : dir.Proper) (isFile : file.Proper) :
    (oneFile dir file).Proper := by
  refine ⟨isDir, ?_, by decide, ⟨isFile, List.nodup_nil, trivial⟩, trivial⟩
  exact List.nodup_singleton _

theorem topContext_proper : topContext.Proper := ⟨by decide, by decide, by decide⟩

theorem plainDir_proper (schedule : Schedule) : (plainDir schedule).Proper := by
  refine ⟨.inr rfl, rfl, ⟨_, rfl⟩, ⟨_, rfl⟩, Option.some_ne_none _ |>.symm, ?_,
    Option.some_ne_none _ |>.symm⟩
  show some [117] ≠ some [separator]
  decide

theorem plainFile_proper (name : Bytes) (schedule : Schedule) (textModified : Bool) :
    (plainFile name schedule textModified).Proper :=
  ⟨.inl rfl, rfl, ⟨_, rfl⟩, ⟨_, rfl⟩, Option.some_ne_none _ |>.symm, Option.some_ne_none _ |>.symm,
    Option.some_ne_none _ |>.symm⟩

end Replaced

end Reported

end Subversion.Client
