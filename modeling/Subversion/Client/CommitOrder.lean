/-
This file shows when the editor calls of a commit obey the ordering rules.
-/

import Subversion.Client.CommitDrive

namespace Subversion.Client

open Delta Subr Wc Lib

/-- Commit items of one repository. Its root itself is only ever committed for its properties. -/
structure Committable (root : Bytes) (items : List CommitItem) : Prop where
  nonempty : items ≠ []
  distinct : (items.map CommitItem.url).Nodup
  isRoot : IsRoot root
  harvested : ∀ item ∈ items, Harvested item
  nulFree : ∀ item ∈ items, 0 ∉ item.url
  below : ∀ item ∈ items, ∃ components, (∀ name ∈ components, IsComponent name) ∧
    item.url = root ++ belowPath components ∧ (components = [] → canBeBase item)

section Sorting

/-- Items in the order of the keys of their urls. -/
def Sorted (items : List CommitItem) : Prop :=
  items.Pairwise fun item₁ item₂ => sortKey item₁.url < sortKey item₂.url

theorem sortKey_injective {path₁ path₂ : Bytes} (same : sortKey path₁ = sortKey path₂) : path₁ = path₂ := by
  rw [sortKey, sortKey] at same
  exact List.map_injective_iff.mpr byteRank_injective (List.append_inj' same rfl).1

/-- The sort puts the keys in order. -/
theorem keys_insertionSort {items : List CommitItem} (nulFree : ∀ item ∈ items, 0 ∉ item.url) :
    (items.insertionSort sortCommitItemUrls).Pairwise fun item₁ item₂ =>
      sortKey item₁.url ≤ sortKey item₂.url := by
  have keys : (items.insertionSort sortCommitItemUrls).map (fun item => sortKey item.url) =
      (items.map fun item => sortKey item.url).insertionSort (· ≤ ·) := by
    apply List.map_insertionSort
    intro item₁ member₁ item₂ member₂
    exact comparePaths_le_iff (nulFree item₁ member₁) (nulFree item₂ member₂)
  have increasing := List.pairwise_insertionSort (· ≤ ·) (items.map fun item => sortKey item.url)
  rw [← keys, List.pairwise_map] at increasing
  exact increasing

theorem sorted_insertionSort {items : List CommitItem} (distinct : (items.map CommitItem.url).Nodup)
    (nulFree : ∀ item ∈ items, 0 ∉ item.url) : Sorted (items.insertionSort sortCommitItemUrls) := by
  have different := ((List.perm_insertionSort sortCommitItemUrls items).map CommitItem.url).nodup_iff.mpr
    distinct
  rw [List.Nodup, List.pairwise_map] at different
  apply (keys_insertionSort nulFree).imp₂ _ different
  intro item₁ item₂ le differ
  exact lt_of_le_of_ne le fun same => differ (sortKey_injective same)

/-- Items that come one after the other by their keys do so in the list. -/
theorem Sorted.sublist {items chosen : List CommitItem} (sorted : Sorted items) (members : chosen ⊆ items)
    (increasing : Sorted chosen) : chosen.Sublist items := by
  have antisymmetric : Std.Antisymm fun item₁ item₂ : CommitItem =>
      sortKey item₁.url < sortKey item₂.url :=
    ⟨fun _ _ less greater => absurd less (lt_asymm greater)⟩
  have different : chosen.Nodup := by
    apply increasing.imp
    rintro item _ less rfl
    exact lt_irrefl _ less
  exact List.sublist_of_subperm_of_pairwise (List.subperm_of_subset different members) increasing sorted

end Sorting

section Order

/-- An item below a root, with the components of its way from there. -/
structure Below (root : Bytes) (components : CommitItem → List Bytes) (item : CommitItem) : Prop where
  names : ∀ name ∈ components item, IsComponent name
  url : item.url = root ++ belowPath (components item)
  nulFree : 0 ∉ item.url

variable {root : Bytes} {components : CommitItem → List Bytes}

/-- The text of a url tells whether an item lies below another one. -/
theorem Below.inside_iff {item₁ item₂ : CommitItem} (below₁ : Below root components item₁)
    (below₂ : Below root components item₂) :
    item₁.url ++ [separator] <+: item₂.url ↔
      components item₁ <+: components item₂ ∧ components item₁ ≠ components item₂ := by
  rw [below₁.url, below₂.url, List.append_assoc, List.prefix_append_right_inj,
    belowPath_separator_prefix_iff _ below₁.names below₂.names]

/-- What lies below an item comes after it. -/
theorem sortKey_lt_of_inside {url₁ url₂ : Bytes} (inside : url₁ ++ [separator] <+: url₂) :
    sortKey url₁ < sortKey url₂ := by
  obtain ⟨rest, rfl⟩ := inside
  rw [List.append_assoc]
  apply sortKey_lt_append_cons
  rw [byteRank_separator]
  decide

theorem Below.eq_of_components_eq {item₁ item₂ : CommitItem} (below₁ : Below root components item₁)
    (below₂ : Below root components item₂) (same : components item₁ = components item₂) :
    item₁.url = item₂.url := by
  rw [below₁.url, below₂.url, same]

/-- No item comes before one that lies above it. -/
theorem Below.not_above {item₁ item₂ : CommitItem} (below₁ : Below root components item₁)
    (below₂ : Below root components item₂) (less : sortKey item₁.url < sortKey item₂.url) :
    ¬ components item₂ <+: components item₁ := by
  intro isPrefix
  by_cases same : components item₂ = components item₁
  · rw [below₂.eq_of_components_eq below₁ same] at less
    exact lt_irrefl _ less
  · exact lt_asymm less (sortKey_lt_of_inside ((below₂.inside_iff below₁).mpr ⟨isPrefix, same⟩))

/-- What comes between two urls that begin alike begins like them. -/
theorem prefix_of_keys {common url₁ between url₂ : Bytes} (nulFree : 0 ∉ common) (first : common <+: url₁)
    (second : common <+: url₂) (above : sortKey url₁ < sortKey between)
    (below : sortKey between < sortKey url₂) : common <+: between := by
  obtain ⟨rest₁, rfl⟩ := first
  obtain ⟨rest₂, rfl⟩ := second
  rw [sortKey_append] at above below
  exact prefix_of_sortKey nulFree (prefix_of_between above below)

def visits (components : CommitItem → List Bytes) (items : List CommitItem) : List (Visit Bytes) :=
  items.map (visitOf components)

theorem sublist_visits {items : List CommitItem} {first between second : Visit Bytes}
    (order : [first, between, second].Sublist (visits components items)) :
    ∃ item₁ item₂ item₃, [item₁, item₂, item₃].Sublist items ∧ first = visitOf components item₁ ∧
      between = visitOf components item₂ ∧ second = visitOf components item₃ := by
  obtain ⟨chosen, sublist, shape⟩ := List.sublist_map_iff.mp order
  obtain ⟨item₁, rest₁, rfl, rfl, shape₁⟩ := List.map_eq_cons_iff.mp shape.symm
  obtain ⟨item₂, rest₂, rfl, rfl, shape₂⟩ := List.map_eq_cons_iff.mp shape₁
  obtain ⟨item₃, rest₃, rfl, rfl, shape₃⟩ := List.map_eq_cons_iff.mp shape₂
  rw [List.map_eq_nil_iff] at shape₃
  subst shape₃
  exact ⟨item₁, item₂, item₃, sublist, rfl, rfl, rfl⟩

theorem Sorted.of_sublist {items : List CommitItem} (sorted : Sorted items)
    {item₁ item₂ item₃ : CommitItem} (order : [item₁, item₂, item₃].Sublist items) :
    sortKey item₁.url < sortKey item₂.url ∧ sortKey item₂.url < sortKey item₃.url := by
  have chosen : Sorted [item₁, item₂, item₃] := List.Pairwise.sublist order sorted
  simp only [Sorted, List.pairwise_cons, List.mem_cons] at chosen
  exact ⟨chosen.1 item₂ (by simp), chosen.2.1 item₃ (by simp)⟩

/-- A sorted list visits every item after the directories above it, and what lies below a directory
that is no item together. -/
theorem ordered_visits {items : List CommitItem} (sorted : Sorted items)
    (below : ∀ item ∈ items, Below root components item) : Ordered (visits components items) where
  parentFirst := by
    rw [visits, List.pairwise_map]
    apply List.Pairwise.imp_of_mem _ sorted
    intro item₁ item₂ member₁ member₂ less
    exact (below item₁ member₁).not_above (below item₂ member₂) less
  together := by
    intro first between second order path inside proper inside₂
    obtain ⟨item₁, item₂, item₃, sublist, rfl, rfl, rfl⟩ := sublist_visits order
    obtain ⟨less₁, less₂⟩ := sorted.of_sublist sublist
    have below₁ := below item₁ (sublist.subset (by simp))
    have below₂ := below item₂ (sublist.subset (by simp))
    have below₃ := below item₃ (sublist.subset (by simp))
    have names : ∀ name ∈ path, IsComponent name :=
      fun name member => below₁.names name (inside.subset member)
    have text : ∀ {item}, Below root components item → path <+: components item →
        path ≠ components item → root ++ (belowPath path ++ [separator]) <+: item.url := by
      intro item place isPrefix differ
      rw [place.url, List.prefix_append_right_inj]
      exact (belowPath_separator_prefix_iff path names place.names).mpr ⟨isPrefix, differ⟩
    have proper₃ : path ≠ components item₃ := by
      rintro rfl
      exact below₁.not_above below₃ (less₁.trans less₂) inside
    have nulFree : 0 ∉ root ++ (belowPath path ++ [separator]) :=
      fun zero => below₁.nulFree ((text below₁ inside proper).subset zero)
    have between := prefix_of_keys nulFree (text below₁ inside proper) (text below₃ inside₂ proper₃)
      less₁ less₂
    rw [below₂.url, List.prefix_append_right_inj] at between
    exact ((belowPath_separator_prefix_iff path names below₂.names).mp between).1

/-- An item comes between a directory that is entered and an item below the directory: its url is the
one of the directory with more characters, the first of them before the separator in the order. -/
def Interposed (items : List CommitItem) : Prop :=
  ∃ dir ∈ items, ∃ away ∈ items, ∃ inner ∈ items, enters dir = true ∧
    dir.url ++ [separator] <+: inner.url ∧
    ∃ byte rest, away.url = dir.url ++ byte :: rest ∧ byte ≠ separator ∧ 0 < signedByte byte

/-- An item between a directory and what lies below the directory. -/
theorem exists_of_between {dir away inner : CommitItem} (below₁ : Below root components dir)
    (below₂ : Below root components away) (inside : dir.url ++ [separator] <+: inner.url)
    (above : sortKey dir.url < sortKey away.url) (before : sortKey away.url < sortKey inner.url)
    (outside : ¬ components dir <+: components away) :
    ∃ byte rest, away.url = dir.url ++ byte :: rest ∧ byte ≠ separator ∧ 0 < signedByte byte := by
  have longer := prefix_of_keys below₁.nulFree (List.prefix_refl dir.url)
    ((List.prefix_append _ _).trans inside) above before
  obtain ⟨more, text⟩ := longer
  cases more with
  | nil =>
      rw [List.append_nil] at text
      rw [text] at above
      exact absurd above (lt_irrefl _)
  | cons byte rest =>
      have other : byte ≠ separator := by
        rintro rfl
        apply outside
        have within : dir.url ++ [separator] <+: away.url := ⟨rest, by rw [← text, List.append_assoc]; rfl⟩
        exact ((below₁.inside_iff below₂).mp within).1
      refine ⟨byte, rest, text.symm, other, ?_⟩
      have present : byte ≠ 0 := by
        rintro rfl
        exact below₂.nulFree (text ▸ List.mem_append_right _ List.mem_cons_self)
      rw [← text, sortKey_append, sortKey, sortKey_cons] at above
      rw [← byteRank_of_ne other]
      rcases lt_or_gt_of_ne (byteRank_ne_zero present) with negative | positive
      · exact absurd above
          (lt_asymm (List.append_left_lt (List.cons_lt_cons_iff.mpr (.inl negative))))
      · exact positive

/-- A sorted list comes back to a directory it entered if and only if an item is interposed. -/
theorem walk_returns_iff {items : List CommitItem} (sorted : Sorted items)
    (below : ∀ item ∈ items, Below root components item) :
    (∀ entered away goal, [entered, away, goal].Sublist (visits components items) →
      entered.enters = true → entered.path <+: goal.path → entered.path <+: away.path) ↔
        ¬ Interposed items := by
  constructor
  · rintro together ⟨dir, member₁, away, member₂, inner, member₃, entered, inside, byte, rest, text, other,
      positive⟩
    have below₁ := below dir member₁
    have below₂ := below away member₂
    have below₃ := below inner member₃
    rw [← byteRank_of_ne other] at positive
    have above : sortKey dir.url < sortKey away.url := by
      rw [text]
      exact sortKey_lt_append_cons positive
    have before : sortKey away.url < sortKey inner.url := by
      obtain ⟨tail, shape⟩ := inside
      rw [text, ← shape, List.append_assoc, sortKey_append, sortKey_append, sortKey_cons,
        List.singleton_append, sortKey_cons]
      apply List.append_left_lt
      rw [List.cons_lt_cons_iff, byteRank_separator]
      exact .inl (byteRank_lt_separator other)
    have sublist : [dir, away, inner].Sublist items := by
      apply sorted.sublist
      · simp [member₁, member₂, member₃]
      · simp [Sorted, above, before, above.trans before]
    obtain ⟨isPrefix, -⟩ := (below₁.inside_iff below₃).mp inside
    have within := together _ _ _ (sublist.map (visitOf components)) entered isPrefix
    have differ : components dir ≠ components away := by
      intro same
      rw [below₁.eq_of_components_eq below₂ same] at above
      exact lt_irrefl _ above
    obtain ⟨tail, shape⟩ := (below₁.inside_iff below₂).mpr ⟨within, differ⟩
    rw [text, List.append_assoc] at shape
    exact other (List.cons.inj (List.append_cancel_left shape)).1.symm
  · intro free entered away goal order enters isPrefix
    obtain ⟨dir, between, inner, sublist, rfl, rfl, rfl⟩ := sublist_visits order
    obtain ⟨less₁, less₂⟩ := sorted.of_sublist sublist
    have member₁ := sublist.subset (show dir ∈ [dir, between, inner] by simp)
    have member₂ := sublist.subset (show between ∈ [dir, between, inner] by simp)
    have member₃ := sublist.subset (show inner ∈ [dir, between, inner] by simp)
    have below₁ := below dir member₁
    have below₃ := below inner member₃
    have differ : components dir ≠ components inner := by
      intro same
      have less := less₁.trans less₂
      rw [below₁.eq_of_components_eq below₃ same] at less
      exact lt_irrefl _ less
    have inside := (below₁.inside_iff below₃).mpr ⟨isPrefix, differ⟩
    by_contra outside
    exact free ⟨dir, member₁, between, member₂, inner, member₃, enters, inside,
      exists_of_between below₁ (below between member₂) inside less₁ less₂ outside⟩

end Order

section Condense

variable {root : Bytes} {components : CommitItem → List Bytes}

theorem belowPath_length_eq {components₁ components₂ : List Bytes} (isPrefix : components₁ <+: components₂)
    (root : Bytes) :
    (root ++ belowPath components₁).length = (root ++ belowPath components₂).length ↔
      components₁ = components₂ := by
  obtain ⟨more, rfl⟩ := isPrefix
  constructor
  · intro same
    cases more with
    | nil => exact (List.append_nil _).symm
    | cons component more =>
        simp only [belowPath_append, belowPath_cons, List.length_append, List.length_cons] at same
        omega
  · rintro same
    rw [← same]

/-- The base stays above the items, and equal to an item only where that is allowed. -/
theorem adjustBase_spec (isRoot : IsRoot root) {item : CommitItem} (place : Below root components item)
    (atRoot : components item = [] → canBeBase item) {base : List Bytes} (above : base <+: components item) :
    ∃ base', adjustBase (root ++ belowPath base) item = root ++ belowPath base' ∧ base' <+: base ∧
      (components item = base' → canBeBase item) ∧
      ∀ path, path <+: base → (path = components item → canBeBase item) → path <+: base' := by
  have sameLength := belowPath_length_eq above root
  rw [← place.url] at sameLength
  by_cases chop : base = components item ∧ ¬ canBeBase item
  · obtain ⟨rfl, notBase⟩ := chop
    have nonempty : components item ≠ [] := fun empty => notBase (atRoot empty)
    obtain ⟨before, last, split⟩ : ∃ before last, components item = before ++ [last] := by
      rcases List.eq_nil_or_concat (components item) with empty | ⟨before, last, split⟩
      · exact absurd empty nonempty
      · exact ⟨before, last, split.trans List.concat_eq_append⟩
    refine ⟨before, ?_, ?_, ?_, ?_⟩
    · have names := place.names
      rw [split] at names
      rw [adjustBase, if_pos ⟨sameLength.mpr rfl, notBase⟩, split, belowPath_append,
        belowPath_singleton, ← List.append_assoc]
      exact removeComponent_below (isRoot.below before fun name member =>
        names name (List.mem_append_left _ member)) (names last (by simp))
    · rw [split]
      exact List.prefix_append _ _
    · intro same
      rw [split] at same
      exact absurd same (by simp)
    · intro path inside allowed
      have differ : path ≠ components item := fun same => notBase (allowed same)
      have proper := (prefix_dropLast_iff.mpr ⟨inside, differ⟩).1
      rw [split, List.dropLast_concat] at proper
      exact proper
  · refine ⟨base, ?_, List.prefix_refl _, ?_, fun path inside _ => inside⟩
    · rw [adjustBase, if_neg]
      rintro ⟨same, notBase⟩
      exact chop ⟨sameLength.mp same, notBase⟩
    · intro same
      by_contra notBase
      exact chop ⟨same.symm, notBase⟩

/-- What is known about the base after some of the items. -/
structure IsBase (components : CommitItem → List Bytes) (items : List CommitItem) (base : List Bytes) :
    Prop where
  above : ∀ item ∈ items, base <+: components item
  allowed : ∀ item ∈ items, components item = base → canBeBase item
  longest : ∀ path, (∀ item ∈ items, path <+: components item) →
    (∀ item ∈ items, path = components item → canBeBase item) → path <+: base

/-- One more item can only shorten the base. -/
theorem IsBase.concat {items : List CommitItem} {item : CommitItem} {base base' : List Bytes}
    (isBase : IsBase components items base) (shorter : base' <+: base) (above : base' <+: components item)
    (allowed : components item = base' → canBeBase item)
    (longest : ∀ path, path <+: base → path <+: components item →
      (path = components item → canBeBase item) → path <+: base') :
    IsBase components (items ++ [item]) base' where
  above := by
    intro other member
    rcases List.mem_append.mp member with old | new
    · exact shorter.trans (isBase.above other old)
    · rw [List.mem_singleton.mp new]
      exact above
  allowed := by
    intro other member same
    rcases List.mem_append.mp member with old | new
    · -- A shorter base that still is the path of the item was not shortened.
      apply isBase.allowed other old
      have unchanged := (isBase.above other old).length_le
      rw [same] at unchanged ⊢
      exact shorter.eq_of_length_le unchanged
    · rw [List.mem_singleton.mp new] at same ⊢
      exact allowed same
  longest := by
    intro path inside permitted
    apply longest path
    · exact isBase.longest path (fun other member => inside other (List.mem_append_left _ member))
        fun other member => permitted other (List.mem_append_left _ member)
    · exact inside item (by simp)
    · exact permitted item (by simp)

theorem condenseLoop_spec (isRoot : IsRoot root) (rest : List CommitItem) :
    ∀ {items : List CommitItem} {base : List Bytes} {last : CommitItem},
      (∀ name ∈ base, IsComponent name) → IsBase components items base →
      ((last :: rest).map CommitItem.url).Nodup → (∀ item ∈ rest, Below root components item) →
      (∀ item ∈ rest, components item = [] → canBeBase item) →
      ∃ base', condenseLoop (root ++ belowPath base) last rest = .ok (root ++ belowPath base') ∧
        IsBase components (items ++ rest) base' := by
  induction rest with
  | nil =>
      intro items base last _ isBase _ _ _
      refine ⟨base, rfl, ?_⟩
      rw [List.append_nil]
      exact isBase
  | cons item rest ih =>
      intro items base last names isBase distinct below atRoot
      have place := below item List.mem_cons_self
      have differ : last.url ≠ item.url := by
        intro same
        rw [List.map_cons, List.map_cons, same] at distinct
        exact (List.nodup_cons.mp distinct).1 List.mem_cons_self
      have ancestor := getLongestAncestor_below isRoot base (components item) names place.names
      rw [← place.url] at ancestor
      obtain ⟨base', adjusted, shorter, allowed, longest⟩ := adjustBase_spec isRoot place
        (atRoot item List.mem_cons_self) (sharedPath_prefix_right base (components item))
      have toBase := shorter.trans (sharedPath_prefix_left base (components item))
      have next : IsBase components (items ++ [item]) base' := by
        apply isBase.concat toBase (shorter.trans (sharedPath_prefix_right _ _)) allowed
        intro path inside inside' permitted
        exact longest path (prefix_sharedPath path inside inside') permitted
      rw [condenseLoop, if_neg differ, ancestor, List.append_cons]
      simp only [adjusted]
      apply ih (fun name member => names name (toBase.subset member)) next
      · rw [List.map_cons] at distinct
        exact (List.nodup_cons.mp distinct).2
      · exact fun other member => below other (List.mem_cons_of_mem _ member)
      · exact fun other member => atRoot other (List.mem_cons_of_mem _ member)

/-- The base of all items, and what is left of their urls. -/
theorem condenseCommitItems_spec (isRoot : IsRoot root) {items : List CommitItem} (nonempty : items ≠ [])
    (distinct : (items.map CommitItem.url).Nodup) (below : ∀ item ∈ items, Below root components item)
    (atRoot : ∀ item ∈ items, components item = [] → canBeBase item) :
    ∃ base, IsBase components items base ∧ condenseCommitItems items =
      .ok (root ++ belowPath base,
        (items.insertionSort sortCommitItemUrls).map (chopBase (root ++ belowPath base))) := by
  have sorting := List.perm_insertionSort sortCommitItemUrls items
  have members : ∀ {item}, item ∈ items.insertionSort sortCommitItemUrls → item ∈ items :=
    fun member => sorting.mem_iff.mp member
  have different := (sorting.map CommitItem.url).nodup_iff.mpr distinct
  rw [condenseCommitItems]
  generalize items.insertionSort sortCommitItemUrls = sorted at *
  cases sorted with
  | nil => exact absurd sorting.nil_eq.symm nonempty
  | cons first rest =>
      have member := members List.mem_cons_self
      have place := below first member
      obtain ⟨base, adjusted, shorter, allowed, longest⟩ := adjustBase_spec isRoot place
        (atRoot first member) (List.prefix_refl (components first))
      rw [← place.url] at adjusted
      have initial : IsBase components [first] base := by
        refine ⟨?_, ?_, ?_⟩
        · intro item isFirst
          rw [List.mem_singleton.mp isFirst]
          exact shorter
        · intro item isFirst same
          rw [List.mem_singleton.mp isFirst] at same ⊢
          exact allowed same
        · intro path inside permitted
          exact longest path (inside first List.mem_cons_self) (permitted first List.mem_cons_self)
      obtain ⟨base', loop, isBase⟩ := condenseLoop_spec isRoot rest
        (fun name member => place.names name (shorter.subset member)) initial different
        (fun item later => below item (members (List.mem_cons_of_mem _ later)))
        (fun item later => atRoot item (members (List.mem_cons_of_mem _ later)))
      refine ⟨base', ?_, ?_⟩
      · have same : ∀ {item}, item ∈ items → item ∈ [first] ++ rest := fun found => sorting.mem_iff.mpr found
        exact ⟨fun item found => isBase.above item (same found),
          fun item found => isBase.allowed item (same found),
          fun path inside permitted => isBase.longest path
            (fun item found => inside item (members found))
            fun item found => permitted item (members found)⟩
      · simp only [adjusted, loop, bind, Except.bind]
        rfl

/-- The url of an item is the way from the base to it. -/
theorem chopBase_url {item : CommitItem} (place : Below root components item) {base : List Bytes}
    (above : base <+: components item) :
    (chopBase (root ++ belowPath base) item).url = joinPath ((components item).drop base.length) := by
  obtain ⟨more, split⟩ := above
  have text : item.url = root ++ belowPath base ++ belowPath more := by
    rw [place.url, ← split, belowPath_append, List.append_assoc]
  rw [← split, List.drop_left]
  simp only [chopBase, text]
  cases more with
  | nil => simp [belowPath, joinPath]
  | cons component more =>
      rw [if_pos (by simp [belowPath_cons]), belowPath_cons, List.append_cons]
      exact List.drop_left' (by rw [List.length_append, List.length_singleton])

end Condense

section Rules

/-- One of the items is the base of the commit: a directory with property modifications that has all
the others below it. -/
def BaseIsItem (items : List CommitItem) : Prop :=
  ∃ dir ∈ items, canBeBase dir ∧ ∀ other ∈ items, other ≠ dir → dir.url ++ [separator] <+: other.url

variable {root : Bytes} {components : CommitItem → List Bytes}

theorem IsBase.baseIsItem_iff {items : List CommitItem} {base : List Bytes}
    (isBase : IsBase components items base) (below : ∀ item ∈ items, Below root components item)
    (distinct : (items.map CommitItem.url).Nodup) :
    BaseIsItem items ↔ ∃ item ∈ items, components item = base := by
  have different : ∀ item ∈ items, ∀ other ∈ items, other ≠ item → components item ≠ components other := by
    intro item member other member' differ same
    apply differ
    exact List.inj_on_of_nodup_map distinct member' member
      ((below other member').eq_of_components_eq (below item member) same.symm)
  constructor
  · rintro ⟨dir, member, canBe, inside⟩
    refine ⟨dir, member, ?_⟩
    have toBase : components dir <+: base := by
      apply isBase.longest
      · intro other member'
        by_cases same : other = dir
        · rw [same]
        · exact (((below dir member).inside_iff (below other member')).mp (inside other member' same)).1
      · intro other member' equal
        by_cases same : other = dir
        · rw [same]
          exact canBe
        · exact absurd equal (different dir member other member' same)
    exact toBase.eq_of_length_le (isBase.above dir member).length_le
  · rintro ⟨item, member, same⟩
    refine ⟨item, member, isBase.allowed item member same, ?_⟩
    intro other member' differ
    rw [(below item member).inside_iff (below other member'), same]
    refine ⟨isBase.above other member', ?_⟩
    rw [← same]
    exact different item member other member' differ

/-- No calls that handle an item at the base are accepted: there is no parent to give. -/
theorem not_obeysOrdering_of_base {items : List CommitItem} {item : CommitItem} {calls : List EditorCall}
    (member : item ∈ items) (canBe : canBeBase item) (url : item.url = []) :
    ¬ ObeysOrdering items calls := by
  rintro ⟨⟨segments, closing, handled⟩, ⟨final, accepted⟩, -⟩
  rw [← handled.items_eq] at member
  obtain ⟨segment, isSegment, rfl⟩ := List.mem_map.mp member
  have call : .openDirectory [] segment.parent segment.item.revision segment.baton ∈ segment.calls := by
    rw [Segment.calls]
    apply List.mem_append_right
    simp [itemCalls, entryCalls, canBe.1, canBe.2, onlyPropMods, url]
  have isCall : .openDirectory [] segment.parent segment.item.revision segment.baton ∈ calls := by
    rw [handled.calls_eq]
    simp only [List.append_assoc, List.mem_append, List.mem_flatMap]
    exact .inr (.inl ⟨segment, isSegment, call⟩)
  obtain ⟨before, after, step⟩ := Editor.accepted_of_mem accepted isCall
  simp [Editor.accept, Editor.enterDir, Editor.IsParent] at step

theorem mem_walk_names {items : List CommitItem} (names : ∀ item ∈ items, ∀ name ∈ components item,
    IsComponent name) {path last : List Bytes} (member : path ∈ walk last (visits components items)) :
    ∀ name ∈ path, IsComponent name := by
  have inside : ∃ item ∈ items, path <+: components item := by
    rcases exists_of_mem_walk member with ⟨found, isVisit, same⟩ | ⟨goal, isVisit, isPrefix, -⟩
    · obtain ⟨item, isItem, rfl⟩ := List.mem_map.mp isVisit
      exact ⟨item, isItem, same ▸ List.prefix_refl _⟩
    · obtain ⟨item, isItem, rfl⟩ := List.mem_map.mp isVisit
      exact ⟨item, isItem, isPrefix⟩
  obtain ⟨item, isItem, isPrefix⟩ := inside
  exact fun name found => names item isItem name (isPrefix.subset found)

/-- Without an item at the base, the condensed items are handled by the rules, except perhaps for the
directories that are opened. -/
theorem doCommit_condensed {items : List CommitItem} {base : List Bytes}
    (isBase : IsBase components items base)
    (below : ∀ item ∈ items, Below root components item) (harvested : ∀ item ∈ items, Harvested item)
    (noBase : ¬ ∃ item ∈ items, components item = base) (sorted : Sorted items) :
    ∃ calls segments closing final,
      doCommit (items.map (chopBase (root ++ belowPath base))) = .ok calls ∧
      HandlesOnce (items.map (chopBase (root ++ belowPath base))) calls segments closing ∧
      Editor.start.run calls = some final ∧
      ((calls.filterMap openedPath).Nodup ↔ ¬ Interposed items) := by
  let rest : CommitItem → List Bytes := fun item => (components item).drop base.length
  have split : ∀ item ∈ items, base ++ rest item = components item := by
    intro item member
    obtain ⟨more, same⟩ := isBase.above item member
    show base ++ (components item).drop base.length = components item
    rw [← same, List.drop_left]
  have placed : ∀ item ∈ items, Below (root ++ belowPath base) rest item := by
    intro item member
    have place := below item member
    refine ⟨fun name found => place.names name (List.mem_of_mem_drop found), ?_, place.nulFree⟩
    rw [place.url, ← split item member, belowPath_append, List.append_assoc]
  have urls : ∀ item ∈ items, (chopBase (root ++ belowPath base) item).url = joinPath (rest item) :=
    fun item member => chopBase_url (below item member) (isBase.above item member)
  have ways : ∀ condensed ∈ items.map (chopBase (root ++ belowPath base)),
      ∃ path, (∀ name ∈ path, IsComponent name) ∧ condensed.url = joinPath path := by
    intro condensed member
    obtain ⟨item, isItem, rfl⟩ := List.mem_map.mp member
    exact ⟨rest item, (placed item isItem).names, urls item isItem⟩
  choose! way wayNames wayUrl using ways
  have same : ∀ item ∈ items, way (chopBase (root ++ belowPath base) item) = rest item := by
    intro item member
    have isCondensed := List.mem_map_of_mem (f := chopBase (root ++ belowPath base)) member
    apply joinPath_injective (wayNames _ isCondensed) (placed item member).names
    rw [← wayUrl _ isCondensed, urls item member]
  have visitsEq : (items.map (chopBase (root ++ belowPath base))).map (visitOf way) = visits rest items := by
    rw [List.map_map]
    apply List.map_congr_left
    intro item member
    show visit (chopBase (root ++ belowPath base) item) (way (chopBase (root ++ belowPath base) item)) =
      visit item (rest item)
    rw [same item member]
    rfl
  have condensedPlaced : ∀ condensed ∈ items.map (chopBase (root ++ belowPath base)),
      Placed way condensed := by
    intro condensed member
    refine ⟨?_, wayNames condensed member, wayUrl condensed member⟩
    obtain ⟨item, isItem, rfl⟩ := List.mem_map.mp member
    exact harvested item isItem
  have inside : ∀ condensed ∈ items.map (chopBase (root ++ belowPath base)), way condensed ≠ [] := by
    intro condensed member empty
    obtain ⟨item, isItem, rfl⟩ := List.mem_map.mp member
    rw [same item isItem] at empty
    apply noBase
    refine ⟨item, isItem, ?_⟩
    rw [← split item isItem, empty, List.append_nil]
  have order : (items.map (chopBase (root ++ belowPath base))).Pairwise
      fun earlier later => ¬ way later <+: way earlier := by
    rw [List.pairwise_map]
    apply List.Pairwise.imp_of_mem _ sorted
    intro item₁ item₂ member₁ member₂ less
    rw [same item₁ member₁, same item₂ member₂]
    exact (placed item₁ member₁).not_above (placed item₂ member₂) less
  obtain ⟨calls, segments, closing, final, commit, handled, accepted, opened⟩ :=
    doCommit_spec condensedPlaced inside order
  refine ⟨calls, segments, closing, final, commit, handled, accepted, ?_⟩
  rw [opened, visitsEq, ← walk_returns_iff sorted placed, ← nodup_walk_iff (ordered_visits sorted placed)]
  constructor
  · exact fun nodup => nodup.of_map _
  · intro nodup
    apply nodup.map_on
    intro path₁ member₁ path₂ member₂ equal
    have names : ∀ item ∈ items, ∀ name ∈ rest item, IsComponent name :=
      fun item member => (placed item member).names
    exact joinPath_injective (mem_walk_names names member₁) (mem_walk_names names member₂) equal

/-- The calls of a commit obey the ordering rules if and only if the base is no item, and no item comes
between a directory that is committed and one below it. -/
theorem commit_obeysOrdering_iff (root : Bytes) (items : List CommitItem)
    (committable : Committable root items) :
    (∃ baseUrl condensed calls, condenseCommitItems items = .ok (baseUrl, condensed) ∧
      doCommit condensed = .ok calls ∧ ObeysOrdering condensed calls) ↔
        ¬ BaseIsItem items ∧ ¬ Interposed items := by
  obtain ⟨nonempty, distinct, isRoot, harvested, nulFree, located⟩ := committable
  choose! components names urls atRoot using located
  have below : ∀ item ∈ items, Below root components item :=
    fun item member => ⟨names item member, urls item member, nulFree item member⟩
  obtain ⟨base, isBase, condense⟩ := condenseCommitItems_spec isRoot nonempty distinct below atRoot
  have sorted := sorted_insertionSort distinct nulFree
  have members : ∀ {item}, item ∈ items.insertionSort sortCommitItemUrls ↔ item ∈ items :=
    List.mem_insertionSort sortCommitItemUrls
  have drive := fun noBase => doCommit_condensed
    ⟨fun item member => isBase.above item (members.mp member),
      fun item member => isBase.allowed item (members.mp member),
      fun path inside permitted => isBase.longest path (fun item member => inside item (members.mpr member))
        fun item member => permitted item (members.mpr member)⟩
    (fun item member => below item (members.mp member))
    (fun item member => harvested item (members.mp member)) noBase sorted
  simp only [Interposed, members] at drive
  rw [isBase.baseIsItem_iff below distinct, condense]
  constructor
  · rintro ⟨_, _, calls, same, commit, obeys⟩
    obtain ⟨rfl, rfl⟩ := Prod.mk.inj (Except.ok.inj same)
    have noBase : ¬ ∃ item ∈ items, components item = base := by
      rintro ⟨item, member, atBase⟩
      have url := chopBase_url (below item member) (isBase.above item member)
      rw [atBase, List.drop_length] at url
      exact not_obeysOrdering_of_base (List.mem_map_of_mem (members.mpr member))
        (isBase.allowed item member atBase) url obeys
    refine ⟨noBase, ?_⟩
    obtain ⟨calls', segments, closing, final, commit', -, -, opened⟩ := drive noBase
    rw [commit] at commit'
    rw [← Except.ok.inj commit'] at opened
    exact opened.mp obeys.openedOnce
  · rintro ⟨noBase, free⟩
    obtain ⟨calls, segments, closing, final, commit, handled, accepted, opened⟩ := drive noBase
    exact ⟨_, _, calls, rfl, commit, ⟨segments, closing, handled⟩, ⟨final, accepted⟩, opened.mpr free⟩

/-- A directory whose properties were changed. -/
def changedDir (url : Bytes) : CommitItem := ⟨url, .dir, url, 1, none, onlyPropMods⟩

/-- A file whose text was changed. -/
def changedFile (url : Bytes) : CommitItem := ⟨url, .file, url, 1, none, ⟨false, false, true, false, false⟩⟩

theorem harvested_changedDir (url : Bytes) : Harvested (changedDir url) :=
  ⟨⟨.dir, .normal, false, false, false, false, false, true⟩, rfl, .inr rfl, rfl,
    by simp [changedDir, onlyPropMods, noStateFlags]⟩

theorem harvested_changedFile (url : Bytes) : Harvested (changedFile url) :=
  ⟨⟨.file, .normal, false, false, false, false, true, false⟩, rfl, .inl rfl, rfl,
    by simp [changedFile, noStateFlags]⟩

/-- A root `r` with a directory `d`, a file `d/x` in it, and a file beside it. -/
def besideItems (name : Bytes) : List CommitItem :=
  [changedDir [114, 47, 100], changedFile [114, 47, 100, 47, 120], changedFile (114 :: 47 :: name)]

theorem committable_besideItems {name : Bytes} (isName : IsComponent name) (nulFree : 0 ∉ name)
    (differ : name ≠ [100]) : Committable [114] (besideItems name) where
  nonempty := by simp [besideItems]
  distinct := by
    have differ' : name ≠ [100, 47, 120] := by
      rintro rfl
      exact isName.2 (by decide)
    simp [besideItems, changedDir, changedFile, Ne.symm differ, Ne.symm differ']
  isRoot := ⟨[], 114, rfl, by decide⟩
  harvested := by simp [besideItems, harvested_changedDir, harvested_changedFile]
  nulFree := by simp [besideItems, changedDir, changedFile, nulFree]
  below := by
    intro item member
    simp only [besideItems, List.mem_cons, List.not_mem_nil, or_false] at member
    have first : IsComponent [100] := ⟨by decide, by decide⟩
    have second : IsComponent [120] := ⟨by decide, by decide⟩
    rcases member with rfl | rfl | rfl
    · exact ⟨[[100]], by simp [first], rfl, by simp⟩
    · exact ⟨[[100], [120]], by simp [first, second], rfl, by simp⟩
    · refine ⟨[name], by simp [isName], ?_, by simp⟩
      rw [belowPath_singleton]
      rfl

/-- The file `e` comes after everything in the directory. -/
theorem commit_obeysOrdering_plain :
    Committable [114] (besideItems [101]) ∧ ∃ baseUrl condensed calls,
      condenseCommitItems (besideItems [101]) = .ok (baseUrl, condensed) ∧
        doCommit condensed = .ok calls ∧ ObeysOrdering condensed calls := by
  have committable : Committable [114] (besideItems [101]) :=
    committable_besideItems ⟨by decide, by decide⟩ (by decide) (by decide)
  refine ⟨committable, (commit_obeysOrdering_iff [114] (besideItems [101]) committable).mpr ⟨?_, ?_⟩⟩
  · rintro ⟨dir, member, canBe, inside⟩
    have outside := inside (changedFile [114, 47, 101]) (by decide)
    simp only [besideItems, List.mem_cons, List.not_mem_nil, or_false] at member
    rcases member with rfl | rfl | rfl
    · exact absurd (outside (by decide)) (by decide)
    · exact absurd canBe (by decide)
    · exact absurd canBe (by decide)
  · rintro ⟨dir, member, away, member', inner, -, entered, -, byte, rest, text, other, -⟩
    simp only [besideItems, List.mem_cons, List.not_mem_nil, or_false] at member member'
    rcases member with rfl | rfl | rfl
    · rcases member' with rfl | rfl | rfl
      · simp [changedDir] at text
      · simp only [changedDir, changedFile, List.cons_append, List.nil_append, List.cons.injEq, true_and]
          at text
        exact other text.1.symm
      · simp [changedDir, changedFile] at text
    · exact absurd entered (by decide)
    · exact absurd entered (by decide)

/-- The file `d-foo` comes between the directory and the file in it, so that the directory is opened
twice. -/
theorem directory_is_opened_twice :
    Committable [114] (besideItems [100, 45, 102, 111, 111]) ∧
      ¬ ∃ baseUrl condensed calls,
        condenseCommitItems (besideItems [100, 45, 102, 111, 111]) = .ok (baseUrl, condensed) ∧
          doCommit condensed = .ok calls ∧ ObeysOrdering condensed calls := by
  refine ⟨committable_besideItems ⟨by decide, by decide⟩ (by decide) (by decide), ?_⟩
  rintro ⟨baseUrl, condensed, calls, condense, commit, -, -, once⟩
  have condensedEq : condenseCommitItems (besideItems [100, 45, 102, 111, 111]) =
      .ok ([114], [{ changedDir [114, 47, 100] with url := [100] },
        { changedFile [114, 47, 100, 45, 102, 111, 111] with url := [100, 45, 102, 111, 111] },
        { changedFile [114, 47, 100, 47, 120] with url := [100, 47, 120] }]) := rfl
  rw [condensedEq] at condense
  obtain ⟨-, rfl⟩ := Prod.mk.inj (Except.ok.inj condense)
  have callsEq : calls = [.openRoot 0, .openDirectory [100] 0 1 1,
      .transmitPropDeltas [114, 47, 100] 1, .closeDirectory 1,
      .openFile [100, 45, 102, 111, 111] 0 1 2,
      .openDirectory [100] 0 invalidRevnum 3, .openFile [100, 47, 120] 3 1 4, .closeDirectory 3,
      .closeDirectory 0, .transmitTextDeltas [114, 47, 100, 45, 102, 111, 111] false 2,
      .transmitTextDeltas [114, 47, 100, 47, 120] false 4, .closeEdit] :=
    (Except.ok.inj commit).symm
  rw [callsEq] at once
  exact absurd once (by decide)

end Rules

end Subversion.Client
