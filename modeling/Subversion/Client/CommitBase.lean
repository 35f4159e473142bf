/-
This file shows which base the commit items are condensed to.
-/

import Subversion.Client.CommitOrder
import Subversion.Subr.PathJoin

namespace Subversion.Client

open Delta Subr Wc Lib

/-- Items at a root or below it. If the root itself is committed for more than its properties, it has a
parent that can be the base. -/
structure UnderRoot (root : Bytes) (items : List CommitItem) : Prop where
  nonempty : items ≠ []
  isRoot : IsRoot root
  nulFree : ∀ item ∈ items, 0 ∉ item.url
  below : ∀ item ∈ items, ∃ components, (∀ name ∈ components, IsComponent name) ∧
    item.url = root ++ belowPath components
  parent : (∃ item ∈ items, item.url = root ∧ ¬ canBeBase item) →
    ∃ above name, IsRoot above ∧ IsComponent name ∧ root = above ++ separator :: name

/-- What condensing has to come to: the items in an order with ancestors first, and a base from which
each url can be joined again. -/
structure Based (items : List CommitItem) (baseUrl : Bytes) (sorted : List CommitItem) : Prop where
  perm : sorted.Perm items
  ancestorsFirst : sorted.Pairwise fun earlier later => ¬ later.url ++ [separator] <+: earlier.url
  above : ∀ item ∈ items, baseUrl = item.url ∨ baseUrl ++ [separator] <+: item.url
  allowed : ∀ item ∈ items, baseUrl = item.url → canBeBase item
  joins : ∀ item ∈ items, pathJoin baseUrl (chopBase baseUrl item).url = item.url

section Bases

variable {root : Bytes} {components : CommitItem → List Bytes} {items : List CommitItem}

theorem joinPath_head {names : List Bytes} (valid : ∀ name ∈ names, IsComponent name) :
    (joinPath names).head? ≠ some separator := by
  cases names with
  | nil => simp [joinPath]
  | cons first rest =>
      have isComponent := valid first List.mem_cons_self
      rw [joinPath, List.head?_append_of_ne_nil _ isComponent.1]
      exact fun isHead => isComponent.2 (List.mem_of_mem_head? isHead)

/-- The base and what is left of an url give the url. -/
theorem pathJoin_joinPath {base : Bytes} (isRoot : IsRoot base) {names : List Bytes}
    (valid : ∀ name ∈ names, IsComponent name) :
    pathJoin base (joinPath names) = base ++ belowPath names := by
  cases names with
  | nil =>
      rw [joinPath, pathJoin_nil]
      exact (List.append_nil base).symm
  | cons first rest =>
      rw [pathJoin_of_isRoot isRoot (joinPath_ne_nil valid (List.cons_ne_nil _ _)) (joinPath_head valid)]
      rfl

theorem IsBase.based {base : List Bytes} (isBase : IsBase components items base) (isRoot : IsRoot root)
    (below : ∀ item ∈ items, Below root components item) (distinct : (items.map CommitItem.url).Nodup)
    (nulFree : ∀ item ∈ items, 0 ∉ item.url) :
    Based items (root ++ belowPath base) (items.insertionSort sortCommitItemUrls) := by
  have split {item : CommitItem} (member : item ∈ items) :
      item.url = root ++ belowPath base ++ belowPath ((components item).drop base.length) := by
    obtain ⟨more, same⟩ := isBase.above item member
    rw [(below item member).url, ← same, List.drop_left, belowPath_append, List.append_assoc]
  have namesOf {item : CommitItem} (member : item ∈ items) :
      ∀ name ∈ (components item).drop base.length, IsComponent name :=
    fun name found => (below item member).names name (List.mem_of_mem_drop found)
  refine ⟨List.perm_insertionSort sortCommitItemUrls items, ?_, ?_, ?_, ?_⟩
  · apply (sorted_insertionSort distinct nulFree).imp
    intro earlier later less inside
    exact lt_asymm less (sortKey_lt_of_inside inside)
  · intro item member
    rw [split member]
    cases (components item).drop base.length with
    | nil => exact .inl (List.append_nil _).symm
    | cons first rest =>
        refine .inr ?_
        rw [List.prefix_append_right_inj, belowPath_cons]
        exact ⟨_, rfl⟩
  · intro item member same
    apply isBase.allowed item member
    obtain ⟨more, whole⟩ := isBase.above item member
    have length := (belowPath_length_eq (isBase.above item member) root).mp
    rw [← (below item member).url, ← same] at length
    exact (length rfl).symm
  · intro item member
    have nameOfBase : ∀ name ∈ base, IsComponent name := fun name found =>
      (below item member).names name ((isBase.above item member).subset found)
    rw [chopBase_url (below item member) (isBase.above item member),
      pathJoin_joinPath (isRoot.below base nameOfBase) (namesOf member), ← split member]

/-- Sorted items of which two have the same url have two neighbours that do. -/
theorem condenseLoop_duplicate (isRoot : IsRoot root) (rest : List CommitItem) :
    ∀ {base : List Bytes} {last : CommitItem}, (∀ name ∈ base, IsComponent name) →
      ((last :: rest).Pairwise fun item₁ item₂ => sortKey item₁.url ≤ sortKey item₂.url) →
      ¬ ((last :: rest).map CommitItem.url).Nodup →
      (∀ item ∈ rest, Below root components item) →
      (∀ item ∈ rest, components item = [] → canBeBase item) →
      ∃ error, condenseLoop (root ++ belowPath base) last rest = .error error ∧
        error.code = .clientDuplicateCommitUrl := by
  induction rest with
  | nil =>
      intro base last _ _ repeated
      exact absurd (by simp) repeated
  | cons item rest ih =>
      intro base last names sorted repeated below atRoot
      obtain ⟨lastFirst, later⟩ := List.pairwise_cons.mp sorted
      rw [condenseLoop]
      by_cases same : last.url = item.url
      · rw [if_pos same]
        exact ⟨_, rfl, rfl⟩
      · have place := below item List.mem_cons_self
        have ancestor := getLongestAncestor_below isRoot base (components item) names place.names
        rw [← place.url] at ancestor
        obtain ⟨base', adjusted, shorter, -, -⟩ := adjustBase_spec isRoot place
          (atRoot item List.mem_cons_self) (sharedPath_prefix_right base (components item))
        have toBase := shorter.trans (sharedPath_prefix_left base (components item))
        rw [if_neg same, ancestor]
        simp only [adjusted]
        apply ih (fun name member => names name (toBase.subset member)) later
        · -- The last item comes before all others, so that the same url is among them.
          intro distinct
          apply repeated
          rw [List.map_cons, List.nodup_cons]
          refine ⟨?_, distinct⟩
          intro member
          obtain ⟨other, inside, isUrl⟩ := List.mem_map.mp member
          have first := lastFirst item List.mem_cons_self
          rcases List.mem_cons.mp inside with rfl | behind
          · exact same isUrl.symm
          · have second := (List.pairwise_cons.mp later).1 other behind
            rw [isUrl] at second
            exact same (sortKey_injective (le_antisymm first second))
        · exact fun other member => below other (List.mem_cons_of_mem _ member)
        · exact fun other member => atRoot other (List.mem_cons_of_mem _ member)

theorem condenseCommitItems_duplicate (isRoot : IsRoot root) (nonempty : items ≠ [])
    (repeated : ¬ (items.map CommitItem.url).Nodup)
    (below : ∀ item ∈ items, Below root components item)
    (atRoot : ∀ item ∈ items, components item = [] → canBeBase item) :
    ∃ error, condenseCommitItems items = .error error ∧ error.code = .clientDuplicateCommitUrl := by
  have sorting := List.perm_insertionSort sortCommitItemUrls items
  have members : ∀ {item}, item ∈ items.insertionSort sortCommitItemUrls → item ∈ items :=
    fun member => sorting.mem_iff.mp member
  have increasing := keys_insertionSort fun item member => (below item member).nulFree
  rw [← (sorting.map CommitItem.url).nodup_iff] at repeated
  rw [condenseCommitItems]
  generalize items.insertionSort sortCommitItemUrls = sorted at *
  cases sorted with
  | nil => exact absurd sorting.nil_eq.symm nonempty
  | cons first rest =>
      have place := below first (members List.mem_cons_self)
      obtain ⟨base, adjusted, shorter, -, -⟩ := adjustBase_spec isRoot place
        (atRoot first (members List.mem_cons_self)) (List.prefix_refl (components first))
      rw [← place.url] at adjusted
      obtain ⟨error, failed, isDuplicate⟩ := condenseLoop_duplicate isRoot rest
        (fun name member => place.names name (shorter.subset member)) increasing repeated
        (fun item later => below item (members (List.mem_cons_of_mem _ later)))
        (fun item later => atRoot item (members (List.mem_cons_of_mem _ later)))
      refine ⟨error, ?_, isDuplicate⟩
      simp only [adjusted, failed, bind, Except.bind]

/-- A root that can be the base if it is committed itself. -/
theorem UnderRoot.located (under : UnderRoot root items) :
    ∃ (root' : Bytes) (components : CommitItem → List Bytes), IsRoot root' ∧
      (∀ item ∈ items, Below root' components item) ∧
      ∀ item ∈ items, components item = [] → canBeBase item := by
  obtain ⟨-, isRoot, nulFree, below, parent⟩ := under
  choose! components names urls using below
  by_cases atRoot : ∃ item ∈ items, item.url = root ∧ ¬ canBeBase item
  · obtain ⟨above, name, isAbove, isComponent, rfl⟩ := parent atRoot
    refine ⟨above, fun item => name :: components item, isAbove, ?_,
      fun _ _ empty => absurd empty (List.cons_ne_nil _ _)⟩
    intro item member
    refine ⟨List.forall_mem_cons.mpr ⟨isComponent, names item member⟩, ?_, nulFree item member⟩
    rw [urls item member, belowPath_cons]
    simp
  · refine ⟨root, components, isRoot,
      fun item member => ⟨names item member, urls item member, nulFree item member⟩, ?_⟩
    intro item member empty
    by_contra notBase
    refine atRoot ⟨item, member, ?_, notBase⟩
    rw [urls item member, empty]
    exact List.append_nil root

/-- Condensing fails for two items with one url, and otherwise it finds a base. -/
theorem condenseCommitItems_based (root : Bytes) (items : List CommitItem) (under : UnderRoot root items) :
    ((∃ error, condenseCommitItems items = .error error) ↔ ¬ (items.map CommitItem.url).Nodup) ∧
      ∀ baseUrl condensed, condenseCommitItems items = .ok (baseUrl, condensed) →
        ∃ sorted, condensed = sorted.map (chopBase baseUrl) ∧ Based items baseUrl sorted := by
  obtain ⟨root', components, isRoot, below, atRoot⟩ := under.located
  by_cases distinct : (items.map CommitItem.url).Nodup
  · obtain ⟨base, isBase, condense⟩ :=
      condenseCommitItems_spec isRoot under.nonempty distinct below atRoot
    rw [condense]
    refine ⟨iff_of_false (by rintro ⟨_, failed⟩; cases failed) (not_not.mpr distinct), ?_⟩
    intro baseUrl condensed same
    obtain ⟨rfl, rfl⟩ := Prod.mk.inj (Except.ok.inj same)
    exact ⟨_, rfl, isBase.based isRoot below distinct under.nulFree⟩
  · obtain ⟨error, failed, -⟩ := condenseCommitItems_duplicate isRoot under.nonempty distinct below atRoot
    rw [failed]
    refine ⟨iff_of_true ⟨error, rfl⟩ distinct, ?_⟩
    intro baseUrl condensed ok
    cases ok

theorem underRoot_besideItems : UnderRoot [114] (besideItems [101]) := by
  have committable : Committable [114] (besideItems [101]) :=
    committable_besideItems ⟨by decide, by decide⟩ (by decide) (by decide)
  refine ⟨committable.nonempty, committable.isRoot, committable.nulFree, ?_, ?_⟩
  · intro item member
    obtain ⟨names, valid, url, -⟩ := committable.below item member
    exact ⟨names, valid, url⟩
  · rintro ⟨item, member, atRoot, -⟩
    simp only [besideItems, List.mem_cons, List.not_mem_nil, or_false] at member
    rcases member with rfl | rfl | rfl <;> cases atRoot

/-- A directory, a file in it and a file beside it are condensed to their parent. -/
theorem condenseCommitItems_beside :
    ((∃ error, condenseCommitItems (besideItems [101]) = .error error) ↔
        ¬ ((besideItems [101]).map CommitItem.url).Nodup) ∧
      ∀ baseUrl condensed, condenseCommitItems (besideItems [101]) = .ok (baseUrl, condensed) →
        ∃ sorted, condensed = sorted.map (chopBase baseUrl) ∧ Based (besideItems [101]) baseUrl sorted :=
  condenseCommitItems_based [114] (besideItems [101]) underRoot_besideItems

end Bases

end Subversion.Client
