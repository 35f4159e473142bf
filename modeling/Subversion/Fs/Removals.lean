/-
This file shows that the removal of a node takes away all that can be changed below it, and no more.
-/

import Subversion.Fs.PlantedClones

namespace Subversion.Fs

open Delta SharedTrees Transactions

/-- The lost nodes are gone, the others are as they were, and the listed ones have their lists. -/
structure Pruned (kinds : Nat → NodeKind) (streams : List Trail.Stream) (fs after : Filesystem)
    (lost unlisted : Set NodeId) : Prop where
  sound : SoundFor kinds streams after
  subset : lost ⊆ unlisted
  gone : ∀ id ∈ lost, after.node id = none
  nodes : ∀ id, id ∉ lost → after.node id = fs.node id
  lists : ∀ id node key, id ∉ unlisted → fs.node id = some node → node.kind = .dir → node.dataKey = some key →
    KeepsList fs.store after.store key
  immutable : ∀ key, Immutable fs.store key → Immutable after.store key
  txns : after.txns = fs.txns
  revisions : after.revisions = fs.revisions

section Pruning

variable {kinds : Nat → NodeKind} {streams : List Trail.Stream} {fs middle next : Filesystem}
  {lost unlisted : Set NodeId} {id : NodeId} {node : NodeRev} {depth : Nat}

theorem Pruned.refl (sound : SoundFor kinds streams fs) : Pruned kinds streams fs fs ∅ ∅ :=
  ⟨sound, subset_rfl, fun _ impossible => absurd impossible (Set.notMem_empty _), fun _ _ => rfl,
    fun _ _ key _ _ _ _ => KeepsList.refl fs.store key, fun _ immutable => immutable, rfl, rfl⟩

theorem Pruned.listOf (pruned : Pruned kinds streams fs middle lost unlisted) (listed : id ∉ unlisted)
    (found : fs.node id = some node) (isDir : node.kind = .dir) {entries : List Entry}
    (list : ListOf fs node entries) : ListOf middle node entries :=
  list.keeps fun key named => pruned.lists id node key listed found isDir named

theorem Pruned.widen (pruned : Pruned kinds streams fs middle lost unlisted) {more : Set NodeId}
    (subset : unlisted ⊆ more) : Pruned kinds streams fs middle lost more :=
  { pruned with
    subset := pruned.subset.trans subset
    lists := fun id node key outside => pruned.lists id node key fun member => outside (subset member) }

/-- A rep is no list, or the list of a node that is to go. -/
theorem Pruned.deleteRep (pruned : Pruned kinds streams fs middle lost unlisted) (planted : Planted fs)
    {key : Option Nat} (own : ∀ found, key = some found →
      (∀ lists, Sound lists kinds streams middle → found ∉ lists) ∨
        ∃ id ∈ unlisted, ∃ node, fs.node id = some node ∧ node.kind = .dir ∧ node.dataKey = some found)
    {value : Unit} (ran : Trail.deleteRepOf key middle = .ok (value, next)) :
    Pruned kinds streams fs next lost unlisted ∧ next.node = middle.node := by
  have sound := Trail.keeps_deleteRepOf key _ pruned.sound _ _ ran
  cases key with
  | none =>
      obtain ⟨-, rfl⟩ := pure_ok.mp ran
      exact ⟨pruned, rfl⟩
  | some found =>
      obtain ⟨store, deleted, rfl⟩ := changeStore_ok.mp ran
      obtain ⟨lists, before⟩ := pruned.sound
      have op : runRepOp middle.store 0 (.deleteIfMutable found) = .ok store := deleted
      refine ⟨{ pruned with
        sound := sound
        lists := fun other node' key outside stored isDir named => ?_
        immutable := fun key immutable => Immutable.persists before.reps op (pruned.immutable key immutable) }, rfl⟩
      refine (pruned.lists other node' key outside stored isDir named).trans (KeepsList.op before.reps op ?_)
      rcases own found rfl with unlistedRep | ⟨id, member, node, isNode, isDir', named'⟩
      · refine Or.inl ?_
        rintro rfl
        have same := pruned.nodes other fun isLost => outside (pruned.subset isLost)
        exact unlistedRep lists before (((before.fits (same.trans stored)).data key named).2.mpr isDir)
      · by_cases same : key = found
        · refine Or.inr (pruned.immutable key (planted.owned stored isNode ?_ isDir isDir' named (same ▸ named')))
          rintro rfl
          exact outside member
        · exact Or.inl same

theorem Pruned.erase (pruned : Pruned kinds streams fs middle lost (insert id lost)) :
    Pruned kinds streams fs (middle.eraseNode id) (insert id lost) (insert id lost) := by
  obtain ⟨lists, sound⟩ := pruned.sound
  refine { pruned with
    sound := ⟨lists, sound.eraseNode id⟩
    subset := subset_rfl
    gone := fun other member => ?_
    nodes := fun other outside => ?_ }
  · rw [Filesystem.node_eraseNode]
    split
    · rfl
    · next distinct => exact pruned.gone other (member.resolve_left distinct)
  · rw [Filesystem.node_eraseNode, if_neg fun same => outside (Or.inl same)]
    exact pruned.nodes other fun isLost => outside (Or.inr isLost)

/-- The reps of a node go before the node does. -/
theorem Pruned.removeNode (pruned : Pruned kinds streams fs middle lost lost) (planted : Planted fs)
    (outside : id ∉ lost) (found : fs.node id = some node)
    (ran : (do
      Trail.deleteRepOf node.propKey
      Trail.deleteRepOf node.dataKey
      Trail.deleteRepOf node.editKey
      Trail.deleteNodeRevision id : Trail Unit) middle = .ok ((), next)) :
    Pruned kinds streams fs next (insert id lost) (insert id lost) := by
  simp only [bind_ok, Trail.deleteNodeRevision_ok] at ran
  obtain ⟨_, first, props, _, second, data, _, third, edits, -, rfl⟩ := ran
  have stored : middle.node id = some node := (pruned.nodes id outside).trans found
  have plain {after : Filesystem} (sound : SoundFor kinds streams after) (same : after.node = middle.node)
      {key : Nat} (named : node.propKey = some key ∨ node.editKey = some key) (lists : Set Nat)
      (sound : Sound lists kinds streams after) : key ∉ lists := by
    have fits := sound.fits ((congrFun same id).trans stored)
    rcases named with isProp | isEdit
    · exact (fits.prop key isProp).2
    · exact (fits.edit key isEdit).2.2
  obtain ⟨one, sameOne⟩ := (pruned.widen (Set.subset_insert id lost)).deleteRep planted
    (fun key named => Or.inl (plain pruned.sound rfl (Or.inl named))) props
  obtain ⟨two, sameTwo⟩ := one.deleteRep planted (fun key named => by
    by_cases isDir : node.kind = .dir
    · exact Or.inr ⟨id, Or.inl rfl, node, found, isDir, named⟩
    · refine Or.inl fun lists sound listed => isDir ?_
      exact ((sound.fits ((congrFun sameOne id).trans stored)).data key named).2.mp listed) data
  obtain ⟨three, -⟩ := two.deleteRep planted
    (fun key named => Or.inl (plain two.sound (sameTwo.trans sameOne) (Or.inr named))) edits
  exact three.erase

/-- What is below a node is removed before the node is. -/
theorem deleteIfMutable_takes (planted : Planted fs) (depth : Nat) :
    Takes fs.graph (fun fuel id before after => Trail.deleteIfMutable depth fuel id before = .ok ((), after))
      fun taken after => Pruned kinds streams fs after taken taken := by
  intro fuel id taken state next pruned outside ran
  cases fuel with
  | zero => cases ran
  | succ fuel =>
      obtain ⟨node, _, got, rest⟩ := bind_ok.mp ran
      obtain ⟨stored, rfl⟩ := Trail.getNodeRevision_ok.mp got
      have found := (pruned.nodes id outside).symm.trans stored
      split at rest
      · next committed =>
          obtain ⟨-, rfl⟩ := pure_ok.mp rest
          exact Or.inl ⟨not_loose found committed, pruned⟩
      · next mutable =>
          have loose : Loose fs.graph id := (loose_node found).mpr (not_not.mp mutable)
          have below {children : List (Bytes × NodeId)} (lists : ListsChildren fs.graph id children) :=
            looseUnder_fresh planted.forest loose lists outside
          refine Or.inr ?_
          split at rest
          · next isDir =>
              obtain ⟨entries, same, read, looped⟩ := bind_ok.mp rest
              obtain ⟨entries', list, -⟩ := planted.lists found isDir
              have list' := pruned.listOf outside found isDir list
              obtain ⟨rfl, other, again, -, list''⟩ := readList (fun other again _ => by
                rw [stored] at again
                cases again
                exact ⟨entries', list'⟩) read
              rw [stored] at again
              cases again
              obtain rfl : entries = entries' := by rw [← list''.listed isDir, list'.listed isDir]
              obtain ⟨_, middle, visited, removed⟩ := bind_ok.mp looped
              have lists := list.children found isDir
              refine ⟨fuel, namedChildren entries, middle, rfl, loose, lists, forM_visits entries visited, ?_⟩
              intro done
              obtain ⟨fresh, whole⟩ := below lists
              exact whole ▸ done.removeNode planted fresh found removed
          · next isFile =>
              have lists := listsChildren_nil found (by
                cases isKind : node.kind with
                | file => rfl
                | dir => exact absurd isKind isFile)
              refine ⟨fuel, [], _, rfl, loose, lists, .nil _, fun done => ?_⟩
              obtain ⟨fresh, whole⟩ := below lists
              exact whole ▸ done.removeNode planted fresh found rest

/-- All that can be changed at a node and below it is removed. -/
theorem deleteIfMutable_prunes (planted : Planted fs) (sound : SoundFor kinds streams fs) {fuel : Nat}
    (ran : Trail.deleteIfMutable depth fuel id fs = .ok ((), next)) :
    Pruned kinds streams fs next (looseBelow fs.graph id) (looseBelow fs.graph id) := by
  have pruned := planted.forest.visit_takes (deleteIfMutable_takes planted depth) fuel (Pruned.refl sound)
    (fun _ impossible => absurd impossible (Set.notMem_empty _)) ran
  rwa [Set.empty_union] at pruned

end Pruning

section Pruning

variable {streams : List Trail.Stream} {fs next : Filesystem} {lost : Set NodeId}

/-- Only nodes that can be changed are lost, and no root that is left is one of them. -/
structure Pruning (fs next : Filesystem) (lost : Set NodeId) : Prop where
  loose : ∀ id ∈ lost, Loose fs.graph id
  gone : ∀ id ∈ lost, next.node id = none
  nodes : ∀ id, id ∉ lost → next.node id = fs.node id
  immutable : ∀ key, Immutable fs.store key → Immutable next.store key
  txns : ∀ txn record, next.txns.lookup txn = some record → fs.txns.lookup txn = some record ∧ record.root ∉ lost
  revisions : ∀ root ∈ next.revisions, root ∈ fs.revisions

theorem Planted.shrink (planted : Planted fs) (pruning : Pruning fs next lost)
    (lists : ∀ id node, id ∉ lost → fs.node id = some node → node.kind = .dir →
      ∃ entries, ListOf next node entries ∧ ∀ entry ∈ entries, ProperEntry entry)
    (forest : Forest next.graph next.tops) : Planted next := by
  have old {id : NodeId} {node : NodeRev} (found : next.node id = some node) : id ∉ lost ∧ fs.node id = some node := by
    have outside : id ∉ lost := by
      intro member
      rw [pruning.gone id member] at found
      cases found
    exact ⟨outside, (pruning.nodes id outside).symm.trans found⟩
  have committed {id : NodeId} (there : ∃ node, fs.node id = some node ∧ node.rev ≠ none) :
      ∃ node, next.node id = some node ∧ node.rev ≠ none := by
    obtain ⟨node, found, committed⟩ := there
    have outside : id ∉ lost := fun member => not_loose found committed (pruning.loose id member)
    exact ⟨node, (pruning.nodes id outside).trans found, committed⟩
  have loose {id : NodeId} : Loose next.graph id ↔ id ∉ lost ∧ Loose fs.graph id := by
    rw [loose_iff, loose_iff]
    constructor
    · rintro ⟨node, found, mutable⟩
      exact ⟨(old found).1, node, (old found).2, mutable⟩
    · rintro ⟨outside, node, found, mutable⟩
      exact ⟨node, (pruning.nodes id outside).trans found, mutable⟩
  refine ⟨?_, ?_, forest, ?_, ?_, ?_⟩
  · intro id node found isDir
    exact lists id node (old found).1 (old found).2 isDir
  · intro id other node found key isNode isFound distinct dir dir' named named'
    exact pruning.immutable key
      (planted.owned (old isNode).2 (old isFound).2 distinct dir dir' named named')
  · intro txn record stored
    obtain ⟨before, outside⟩ := pruning.txns txn record stored
    obtain ⟨base, root⟩ := planted.txns before
    exact ⟨committed base, root.imp_right fun isLoose => loose.mpr ⟨outside, isLoose⟩⟩
  · intro txn other record found stored stored' isLoose same
    exact planted.apart (pruning.txns txn record stored).1 (pruning.txns other found stored').1
      (loose.mp isLoose).2 same
  · exact fun root member => committed (planted.revisions root (pruning.revisions root member))

end Pruning

section Lists

variable {streams : List Trail.Stream} {fs next : Filesystem} {id : NodeId} {node : NodeRev} {depth key : Nat}

/-- A directory gets a list of its own, with the same entries. -/
theorem Tidy.ownList (tidy : Tidy streams fs) (found : fs.node id = some node) (isDir : node.kind = .dir)
    (mutable : node.rev = none) (named : node.dataKey ≠ none) (positive : depth ≠ 0)
    (ran : Trail.mutableDataKey depth id node fs = .ok (key, next)) :
    Tidy streams next ∧ next.graph = fs.graph ∧ Elsewhere fs next id ∧ SoleList fs id key ∧
      ∃ rep entries, OwnsList next id node key rep entries ∧ ∀ entry ∈ entries, ProperEntry entry := by
  obtain ⟨kinds, lists, sound⟩ := tidy.sound
  obtain ⟨elsewhere, sole, placed⟩ := mutableDataKey_elsewhere sound tidy.planted found isDir ran
  obtain ⟨lists', rep, entries, after, owns, list, -⟩ := sound.mutableList found isDir named positive ran
  obtain ⟨entries', list', proper⟩ := tidy.planted.lists found isDir
  obtain rfl : entries = entries' := by rw [← list.listed isDir, list'.listed isDir]
  have listed : ListOf next { node with dataKey := some key } entries :=
    Or.inr ⟨key, rep, rfl, owns.stored, owns.holds⟩
  have graph : next.graph = fs.graph := by
    rw [elsewhere.graph tidy.planted, graph_of_node placed, Filesystem.vertex, listed.listed isDir, NodeRev.face,
      if_pos isDir]
    refine (Function.update_eq_self_iff).mpr ?_
    rw [graph_of_node found, Filesystem.vertex, list.listed isDir, NodeRev.face, if_pos isDir]
  refine ⟨⟨⟨kinds, lists', after⟩, ?_, ?_⟩, graph, elsewhere, sole, rep, entries, owns, proper⟩
  · exact (Trail.changes_mutableDataKey closed_files tidy.archived ⟨lists, sound⟩ found mutable isDir ran).1
  · refine tidy.planted.elsewhere elsewhere (Or.inr ((loose_node found).mpr mutable)) placed mutable
      (fun _ => ⟨entries, listed, proper⟩) ?_ ?_
    · intro other found' key' distinct _ stored isDir' same same'
      cases same
      exact absurd same' (sole other found' distinct stored isDir')
    · rw [graph, elsewhere.tops]
      exact tidy.planted.forest

open Classical in
/-- The vertices of a graph without the lost ones. -/
theorem graph_without {lost : Set NodeId} (pruning : Pruning fs next lost) {graph : Graph NodeId Bytes Face}
    (others : ∀ id, id ∉ lost → next.graph id = graph id) : next.graph = without graph lost := by
  funext id
  rw [without]
  split
  · next member => exact graph_none.mpr (pruning.gone id member)
  · next outside => exact others id outside

/-- No root is below a child, and neither is the parent. -/
theorem Planted.notBelow (planted : Planted fs) {parent child : NodeId} {name : Bytes}
    (edge : Edge fs.graph parent name child) {id : NodeId} (isTop : id ∈ fs.tops ∨ Reach fs.graph id parent) :
    id ∉ looseBelow fs.graph child := by
  rintro ⟨loose, reach⟩
  rcases isTop with top | above
  · rcases Relation.ReflTransGen.cases_tail reach with same | ⟨_, -, _, inner⟩
    · exact planted.forest.tops top loose (same ▸ edge)
    · exact planted.forest.tops top loose inner
  · obtain ⟨node, found, -⟩ := edge_iff.mp edge
    obtain ⟨tree, shows⟩ := planted.forest.trees parent _ (graph_of_node found)
    exact shows.acyclic edge (reach.trans above)

/-- The subtree of an entry has been removed, and the list has been written without the entry. -/
structure Unlisting (kinds : Nat → NodeKind) (streams : List Trail.Stream) (fs deleted : Filesystem)
    (parent : NodeId) (node : NodeRev) (entries : List Entry) (name : Bytes) (child : NodeId) (key : Nat)
    (store : Store) : Prop where
  planted : Planted fs
  found : fs.node parent = some node
  isDir : node.kind = .dir
  mutable : node.rev = none
  keyed : node.dataKey = some key
  list : ListOf fs node entries
  sole : SoleList fs parent key
  edge : Edge fs.graph parent name child
  pruned : Pruned kinds streams fs deleted (looseBelow fs.graph child) (looseBelow fs.graph child)
  rewritten : ∃ rep, Rewritten deleted.store store key rep (unparseEntries (loseEntry entries name))

section Unlisting

variable {kinds : Nat → NodeKind} {deleted : Filesystem} {parent child : NodeId} {entries : List Entry}
  {name : Bytes} {store : Store}
  (unlisting : Unlisting kinds streams fs deleted parent node entries name child key store)
include unlisting

theorem Unlisting.outside : parent ∉ looseBelow fs.graph child :=
  unlisting.planted.notBelow unlisting.edge (Or.inr .refl)

theorem Unlisting.less : ListOf (deleted.setStore store) node (loseEntry entries name) := by
  obtain ⟨rep, rewritten⟩ := unlisting.rewritten
  exact Or.inr ⟨key, rep, unlisting.keyed, rewritten.replaces.this,
    rewritten.holds (unlisting.list.distinct.loseEntry name)⟩

theorem Unlisting.others {id : NodeId} {found : NodeRev} (outside : id ∉ looseBelow fs.graph child)
    (distinct : id ≠ parent) (stored : fs.node id = some found) (isDir : found.kind = .dir) {listed : List Entry}
    (list : ListOf fs found listed) : ListOf (deleted.setStore store) found listed := by
  obtain ⟨rep, rewritten⟩ := unlisting.rewritten
  refine list.keeps fun other named => ?_
  refine (unlisting.pruned.lists id found other outside stored isDir named).trans (rewritten.spares.lists other ?_)
  rintro rfl
  exact unlisting.sole id found distinct stored isDir named

theorem Unlisting.pruning : Pruning fs (deleted.setStore store) (looseBelow fs.graph child) := by
  have pruned := unlisting.pruned
  obtain ⟨rep, rewritten⟩ := unlisting.rewritten
  refine ⟨fun _ member => member.1, pruned.gone, pruned.nodes,
    fun other immutable => rewritten.spares.immutable other (pruned.immutable other immutable),
    fun txn record stored => ?_, fun root member => pruned.revisions ▸ member⟩
  have before : fs.txns.lookup txn = some record := pruned.txns ▸ stored
  exact ⟨before, unlisting.planted.notBelow unlisting.edge (Or.inl ⟨txn, record, before, rfl⟩)⟩

/-- The graph before the subtree is removed. -/
def unlisted (fs : Filesystem) (parent : NodeId) (node : NodeRev) (name : Bytes) : Graph NodeId Bytes Face :=
  Function.update fs.graph parent (some { fs.vertex node with
    edge := Function.update (fs.vertex node).edge name none })

theorem Unlisting.grafted : Forest (unlisted fs parent node name) fs.tops ∧
    Modifies fs.graph (unlisted fs parent node name) parent (Tree.graft name none) := by
  have flag : (fs.vertex node).frozen = false := by
    rw [Filesystem.vertex, unlisting.mutable]
    rfl
  exact unlisting.planted.forest.graft (graph_of_node unlisting.found) flag rfl
    (fun _ impossible => by cases impossible) (fun _ _ impossible => by cases impossible)

open Classical in
theorem Unlisting.graph :
    (deleted.setStore store).graph = without (unlisted fs parent node name) (looseBelow fs.graph child) := by
  have distinct := unlisting.list.distinct
  refine graph_without unlisting.pruning fun id outside => ?_
  have same : (deleted.setStore store).node id = fs.node id := unlisting.pruned.nodes id outside
  by_cases isParent : id = parent
  · subst isParent
    rw [graph_of_node (same.trans unlisting.found), unlisted, Function.update_self, Filesystem.vertex,
      unlisting.less.listed unlisting.isDir, childOf_loseEntry distinct, Filesystem.vertex,
      unlisting.list.listed unlisting.isDir]
  · rw [unlisted, Function.update_of_ne isParent]
    refine graph_same same fun found stored isDir => ?_
    obtain ⟨listed, list, -⟩ := unlisting.planted.lists stored isDir
    rw [list.listed isDir, (unlisting.others outside isParent stored isDir list).listed isDir]

/-- What leads to something lost is lost. -/
theorem Unlisting.closed {above below : NodeId} {other : Bytes}
    (edge : Edge (unlisted fs parent node name) above other below) (member : below ∈ looseBelow fs.graph child) :
    above ∈ looseBelow fs.graph child := by
  obtain ⟨loose, reach⟩ := member
  have forest := unlisting.planted.forest
  have remains : Edge fs.graph above other below ∧ (above = parent → other ≠ name) := by
    by_cases isParent : above = parent
    · subst isParent
      rw [unlisted, edge_update_self] at edge
      have isOther : other ≠ name := by
        rintro rfl
        change Function.update _ _ _ _ = _ at edge
        rw [Function.update_self] at edge
        cases edge
      change Function.update _ _ _ _ = _ at edge
      rw [Function.update_of_ne isOther] at edge
      exact ⟨⟨_, graph_of_node unlisting.found, edge⟩, fun _ => isOther⟩
    · exact ⟨(edge_update_ne isParent).mp edge, fun same => absurd same isParent⟩
  refine ⟨forest.freezes remains.1 loose, ?_⟩
  rcases Relation.ReflTransGen.cases_tail reach with rfl | ⟨before, earlier, _, last⟩
  · obtain ⟨rfl, rfl⟩ := forest.single loose remains.1 unlisting.edge
    exact absurd rfl (remains.2 rfl)
  · obtain ⟨rfl, -⟩ := forest.single loose remains.1 last
    exact earlier

theorem Unlisting.keepsPlanted : Planted (deleted.setStore store) ∧
    ∀ {id tree}, id ∉ looseBelow fs.graph child → Shows (unlisted fs parent node name) id tree →
      Shows (deleted.setStore store).graph id tree := by
  classical
  have tops : (deleted.setStore store).tops = fs.tops := by
    have txns : (deleted.setStore store).txns = fs.txns := unlisting.pruned.txns
    rw [Filesystem.tops, Filesystem.tops, txns]
  obtain ⟨removed, shows⟩ := unlisting.grafted.1.remove (subset_refl fs.tops) unlisting.closed
  rw [← unlisting.graph] at removed shows
  refine ⟨unlisting.planted.shrink unlisting.pruning (fun id found outside stored isDir => ?_) (tops ▸ removed),
    shows⟩
  obtain ⟨listed, list, proper⟩ := unlisting.planted.lists stored isDir
  by_cases isParent : id = parent
  · subst isParent
    rw [unlisting.found] at stored
    cases stored
    obtain rfl : listed = entries := by rw [← list.listed isDir, unlisting.list.listed isDir]
    exact ⟨_, unlisting.less, fun entry member => proper entry (List.mem_of_mem_eraseP member)⟩
  · exact ⟨listed, unlisting.others outside isParent stored isDir list, proper⟩

end Unlisting

/-- An entry is deleted, with all that can be changed below it. -/
theorem Tidy.deleteEntry (tidy : Tidy streams fs) {parent : NodeId} {name : Bytes} {requireEmpty : Bool}
    {value : Unit} (ran : Trail.deleteEntry depth parent name requireEmpty fs = .ok (value, next)) :
    Alters streams fs next parent (Tree.graft name none) ∧ Loose fs.graph parent ∧
      ∃ child, Edge fs.graph parent name child ∧
        (requireEmpty = true → ∀ other below, ¬ Edge fs.graph child other below) := by
  obtain ⟨node, key, middle, raw, entries, text, child, deleted, found, isDir, mutable, named, keyed, contents, read,
    isText, isId, ⟨there, isThere, empties⟩, ranDelete, last⟩ := Trail.deleteEntry_finds ran
  obtain ⟨between, graph, elsewhere, sole, rep, held, owns, proper⟩ :=
    tidy.ownList found isDir mutable named (repContents_positive contents) keyed
  obtain ⟨kinds, sound⟩ := between.sound
  have same := owns.holds.parse owns.stored contents
  rw [read] at same
  cases same
  have list : ListOf middle { node with dataKey := some key } entries := Or.inr ⟨key, rep, rfl, owns.stored, owns.holds⟩
  have edge : Edge middle.graph parent name child := by
    refine edge_iff.mpr ⟨_, owns.keyed, ?_⟩
    rw [list.listed isDir, childOf, isText, Option.bind_some, entryId_ok.mp isId]
  have pruned := deleteIfMutable_prunes between.planted sound ranDelete
  have unlisting : ∃ store, next = deleted.setStore store ∧
      Unlisting kinds streams middle deleted parent { node with dataKey := some key } entries name child key store := by
    obtain ⟨lists, soundDeleted⟩ := pruned.sound
    simp only [bind_ok, changeStore_ok] at last
    obtain ⟨-, _, ⟨first, cleared, rfl⟩, store, wrote, rfl⟩ := last
    obtain ⟨again, rep', wrote', rewritten⟩ :=
      soundDeleted.reps.clear_write cleared (unparseEntries (loseEntry entries name))
    cases wrote'.symm.trans wrote
    refine ⟨store, rfl, between.planted, owns.keyed, isDir, mutable, rfl, list, ?_, edge, pruned, rep', rewritten⟩
    intro other found' distinct stored dir
    exact sole other found' distinct ((elsewhere.nodes other distinct).symm.trans stored) dir
  obtain ⟨store, rfl, unlisting⟩ := unlisting
  obtain ⟨planted, shows⟩ := unlisting.keepsPlanted
  obtain ⟨-, modifies⟩ := unlisting.grafted
  refine ⟨⟨⟨?_, ?_, planted⟩, ?_, ?_, ?_, ?_⟩, (loose_node found).mpr mutable, child, graph ▸ edge,
    fun required other below within => ?_⟩
  · exact tidy.sound.imp fun kinds sound => Trail.keeps_deleteEntry depth parent name requireEmpty _ sound _ _ ran
  · obtain ⟨kinds, sound⟩ := tidy.sound
    exact Trail.changes_deleteEntry closed_files depth parent name requireEmpty _ ⟨tidy.archived, sound⟩ _ _ ran
  · intro top names tree way shown
    rw [← graph] at way shown
    exact shows (unlisting.planted.notBelow edge (Or.inr way.reach)) (modifies.along way shown)
  · intro other tree shown apart isRoot
    rw [← graph] at shown apart isRoot
    refine shows (fun below => ?_) (modifies.apart shown apart)
    rcases isRoot with frozen | isTop
    · exact frozen below.1
    · refine unlisting.planted.notBelow edge (Or.inl ?_) below
      rw [elsewhere.tops]
      exact isTop
  · exact unlisting.pruned.txns.trans elsewhere.txns
  · exact unlisting.pruned.revisions.trans elsewhere.revisions
  · rw [← graph] at within
    obtain ⟨again, stored, isChild⟩ := edge_iff.mp within
    rw [isThere] at stored
    cases stored
    cases isKind : there.kind with
    | file =>
        rw [listed_file isKind] at isChild
        cases isChild
    | dir =>
        obtain ⟨-, again, stored, -, list⟩ := dirEntriesSkel_list between.planted (empties isKind required)
        rw [isThere] at stored
        cases stored
        rw [list.listed isKind] at isChild
        cases isChild

end Lists

section Aborting

variable {streams : List Trail.Stream} {fs next : Filesystem} {depth txn : Nat}

theorem deleteTxn_ok {value : Unit} (ran : Trail.deleteTxn txn fs = .ok (value, next)) :
    next.nodes = fs.nodes ∧ next.store = fs.store ∧ next.revisions = fs.revisions ∧
      next.txns.lookup txn = none ∧ ∀ other, other ≠ txn → next.txns.lookup other = fs.txns.lookup other := by
  rw [Trail.deleteTxn] at ran
  split at ran
  · cases ran
    exact ⟨rfl, rfl, rfl, AList.lookup_erase _ _, fun other distinct => AList.lookup_erase_ne distinct⟩
  · cases ran

/-- What can be changed in one transaction is not in another one. -/
theorem Planted.rootApart (planted : Planted fs) {record : Txn} (stored : fs.txns.lookup txn = some record)
    {other : Nat} {found : Txn} (stored' : fs.txns.lookup other = some found) (distinct : other ≠ txn) :
    found.root ∉ looseBelow fs.graph record.root := by
  rintro ⟨loose, reach⟩
  have same := planted.forest.root_unique ⟨txn, record, stored, rfl⟩ ⟨other, found, stored', rfl⟩ loose reach .refl
  exact distinct (planted.apart stored' stored loose same.symm)

/-- The transaction goes with all that could be changed in it, and nothing else does. -/
theorem Tidy.abortTxn (tidy : Tidy streams fs) {value : Unit}
    (ran : Trail.txnBodyAbortTxn depth txn fs = .ok (value, next)) :
    Tidy streams next ∧ next.revisions = fs.revisions ∧ next.txns.lookup txn = none ∧
      (∀ other, other ≠ txn → next.txns.lookup other = fs.txns.lookup other) ∧
      ∀ {id tree}, Shows fs.graph id tree → (¬ Loose fs.graph id ∨ ∃ other record, other ≠ txn ∧
        fs.txns.lookup other = some record ∧ record.root = id) → Shows next.graph id tree := by
  classical
  obtain ⟨record, fs, got, rest⟩ := bind_ok.mp ran
  obtain ⟨stored, rfl⟩ := Trail.getTxn_ok got
  obtain ⟨_, deleted, ranDelete, last⟩ := bind_ok.mp rest
  obtain ⟨kinds, sound⟩ := tidy.sound
  have planted := tidy.planted
  have forest := planted.forest
  have pruned := deleteIfMutable_prunes planted sound ranDelete
  obtain ⟨nodes, store, revisions, gone, others⟩ := deleteTxn_ok last
  have node (id : NodeId) : next.node id = deleted.node id := by rw [Filesystem.node, Filesystem.node, nodes]
  have before {other : Nat} {found : Txn} (isFound : next.txns.lookup other = some found) :
      other ≠ txn ∧ fs.txns.lookup other = some found := by
    have distinct : other ≠ txn := by
      rintro rfl
      rw [gone] at isFound
      cases isFound
    rw [others other distinct, pruned.txns] at isFound
    exact ⟨distinct, isFound⟩
  have pruning : Pruning fs next (looseBelow fs.graph record.root) :=
    ⟨fun _ member => member.1, fun id member => (node id).trans (pruned.gone id member),
      fun id outside => (node id).trans (pruned.nodes id outside),
      fun key immutable => store ▸ pruned.immutable key immutable,
      fun other found isFound => ⟨(before isFound).2, planted.rootApart stored (before isFound).2 (before isFound).1⟩,
      fun root member => by rwa [revisions, pruned.revisions] at member⟩
  have listed {id : NodeId} {found : NodeRev} {entries : List Entry} (outside : id ∉ looseBelow fs.graph record.root)
      (isFound : fs.node id = some found) (isDir : found.kind = .dir) (list : ListOf fs found entries) :
      ListOf next found entries := by
    rw [ListOf, store]
    exact pruned.listOf outside isFound isDir list
  have graph : next.graph = without fs.graph (looseBelow fs.graph record.root) := by
    refine graph_without pruning fun id outside => graph_same (pruning.nodes id outside) fun found isFound isDir => ?_
    obtain ⟨entries, list, -⟩ := planted.lists isFound isDir
    rw [list.listed isDir, (listed outside isFound isDir list).listed isDir]
  have fewer : next.tops ⊆ fs.tops := by
    rintro root ⟨other, found, isFound, rfl⟩
    exact ⟨other, found, (before isFound).2, rfl⟩
  have top : record.root ∈ fs.tops := ⟨txn, record, stored, rfl⟩
  obtain ⟨removed, shows⟩ := forest.remove fewer (forest.above_loose top)
  rw [← graph] at removed shows
  refine ⟨⟨⟨kinds, ?_⟩, ?_, planted.shrink pruning (fun id found outside isFound isDir => ?_) removed⟩,
    revisions.trans pruned.revisions, gone, fun other distinct => (others other distinct).trans (by rw [pruned.txns]),
    fun {id tree} shown kept => shows ?_ shown⟩
  · exact Trail.keeps_deleteTxn txn _ pruned.sound _ _ last
  · have kept := Trail.changes_deleteIfMutable closed_files depth depth record.root _ tidy.archived _ _ ranDelete
    exact Trail.changes_deleteTxn closed_files txn _ kept _ _ last
  · obtain ⟨entries, list, proper⟩ := planted.lists isFound isDir
    exact ⟨entries, listed outside isFound isDir list, proper⟩
  · rcases kept with frozen | ⟨other, found, distinct, isFound, rfl⟩
    · exact fun below => frozen below.1
    · exact planted.rootApart stored isFound distinct

end Aborting

end Subversion.Fs
