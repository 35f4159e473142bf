/-
This file shows that a commit freezes the tree of its transaction and leaves all trees as they are.
-/

import Subversion.Fs.Removals

namespace Subversion.Fs

open Delta SharedTrees Transactions

/-- The cold nodes have been committed, and the others are as they were. Directories have their lists. -/
structure Stabilized (kinds : Nat → NodeKind) (streams : List Trail.Stream) (rev : Nat) (revisions : List NodeId)
    (fs after : Filesystem) (cold : Set NodeId) : Prop where
  sound : SoundFor kinds streams after
  frozen : ∀ id ∈ cold, ∀ node, fs.node id = some node → after.node id = some { node with rev := some rev }
  nodes : ∀ id, id ∉ cold → after.node id = fs.node id
  lists : ∀ id node key, fs.node id = some node → node.kind = .dir → node.dataKey = some key →
    KeepsList fs.store after.store key
  immutable : ∀ key, Immutable fs.store key → Immutable after.store key
  txns : after.txns = fs.txns
  revisions : after.revisions = revisions

section Stabilizing

variable {kinds : Nat → NodeKind} {streams : List Trail.Stream} {rev : Nat} {revisions : List NodeId}
  {fs middle next : Filesystem} {cold : Set NodeId} {id : NodeId} {node : NodeRev} {depth : Nat}

theorem Stabilized.listOf (stabilized : Stabilized kinds streams rev revisions fs middle cold)
    (found : fs.node id = some node) (isDir : node.kind = .dir) {entries : List Entry}
    (list : ListOf fs node entries) : ListOf middle node entries :=
  list.keeps fun key named => stabilized.lists id node key found isDir named

/-- A frozen node has the same list. -/
theorem Stabilized.there (stabilized : Stabilized kinds streams rev revisions fs middle cold)
    (found : fs.node id = some node) : ∃ node', middle.node id = some node' ∧ node'.kind = node.kind ∧
      node'.dataKey = node.dataKey := by
  by_cases member : id ∈ cold
  · exact ⟨_, stabilized.frozen id member node found, rfl, rfl⟩
  · exact ⟨node, (stabilized.nodes id member).trans found, rfl, rfl⟩

theorem Stabilized.steady (stabilized : Stabilized kinds streams rev revisions fs middle cold)
    (steady : Steady kinds streams middle next) : Stabilized kinds streams rev revisions fs next cold := by
  have same (id : NodeId) : next.node id = middle.node id := Trail.Steady.node steady id
  refine ⟨steady.sound, fun id member node found => (same id).trans (stabilized.frozen id member node found),
    fun id outside => (same id).trans (stabilized.nodes id outside), fun id node key found isDir named => ?_,
    fun key immutable => steady.light.immutable key (stabilized.immutable key immutable),
    steady.light.txns.trans stabilized.txns, steady.light.revisions.trans stabilized.revisions⟩
  obtain ⟨node', stored, kind, data⟩ := stabilized.there found
  exact (stabilized.lists id node key found isDir named).trans
    (steady.light.lists id node' key stored (kind.trans isDir) (data.trans named))

/-- The reps of a node become immutable before the node does, and its predecessor is deltified at last. -/
theorem Stabilized.freeze (stabilized : Stabilized kinds streams rev revisions fs middle cold) (outside : id ∉ cold)
    (found : fs.node id = some node) (mutable : node.rev = none)
    (ran : (do
      Trail.makeNodeImmutable id rev
      Trail.stableNode depth id : Trail Unit) middle = .ok ((), next)) :
    Stabilized kinds streams rev revisions fs next (insert id cold) := by
  obtain ⟨_, last, made, stable⟩ := bind_ok.mp ran
  have stored : middle.node id = some node := (stabilized.nodes id outside).trans found
  have sound := Trail.keeps_makeNodeImmutable id rev _ stabilized.sound _ _ made
  simp only [Trail.makeNodeImmutable, bind_ok, Trail.getNodeRevision_ok] at made
  obtain ⟨other, middle, ⟨again, rfl⟩, made⟩ := made
  rw [stored] at again
  cases again
  rw [if_neg (not_not.mpr mutable)] at made
  simp only [bind_ok, ensure_ok, Trail.putNodeRevision_ok] at made
  obtain ⟨-, middle, ⟨-, rfl⟩, _, first, props, _, second, data, -, rfl⟩ := made
  have begins : Steady kinds streams middle middle := ⟨stabilized.sound, Light.refl middle, rfl⟩
  have one := Trail.steady_immutableRepOf node.propKey _ begins _ _ props
  have two := Trail.steady_immutableRepOf node.dataKey _ one _ _ data
  have between := stabilized.steady two
  have placed : Stabilized kinds streams rev revisions fs (second.putNode id { node with rev := some rev })
      (insert id cold) := by
    refine ⟨sound, fun other member node' found' => ?_, fun other isOutside => ?_, between.lists, between.immutable,
      between.txns, between.revisions⟩
    · rw [Filesystem.node_putNode]
      split
      · next same =>
          rw [same, found] at found'
          cases found'
          rfl
      · next distinct => exact between.frozen other (member.resolve_left distinct) node' found'
    · rw [Filesystem.node_putNode, if_neg fun same => isOutside (Or.inl same)]
      exact between.nodes other fun isCold => isOutside (Or.inr isCold)
  have start : Steady kinds streams (second.putNode id { node with rev := some rev })
      (second.putNode id { node with rev := some rev }) := ⟨sound, Light.refl _, rfl⟩
  exact placed.steady (Trail.steady_stableNode depth id _ start _ _ stable)

/-- What is below a node is committed before the node is. -/
theorem stabilizeNode_takes (planted : Planted fs) (depth rev : Nat) :
    Takes fs.graph (fun fuel id before after => Trail.stabilizeNode depth rev fuel id before = .ok ((), after))
      fun taken after => Stabilized kinds streams rev revisions fs after taken := by
  intro fuel id taken state next stabilized outside ran
  cases fuel with
  | zero => cases ran
  | succ fuel =>
      obtain ⟨node, state, got, rest⟩ := bind_ok.mp ran
      obtain ⟨stored, rfl⟩ := Trail.getNodeRevision_ok.mp got
      have found := (stabilized.nodes id outside).symm.trans stored
      split at rest
      · next committed =>
          obtain ⟨-, rfl⟩ := pure_ok.mp rest
          exact Or.inl ⟨not_loose found committed, stabilized⟩
      · next mutable =>
          have loose : Loose fs.graph id := (loose_node found).mpr (not_not.mp mutable)
          have below {children : List (Bytes × NodeId)} (lists : ListsChildren fs.graph id children) :=
            looseUnder_fresh planted.forest loose lists outside
          refine Or.inr ?_
          split at rest
          · next isDir =>
              obtain ⟨entries, _, read, looped⟩ := bind_ok.mp rest
              obtain ⟨entries', list, -⟩ := planted.lists found isDir
              have list' := stabilized.listOf found isDir list
              obtain ⟨rfl, other, again, -, list''⟩ := readList (fun other again _ => by
                rw [stored] at again
                cases again
                exact ⟨entries', list'⟩) read
              rw [stored] at again
              cases again
              obtain rfl : entries = entries' := by rw [← list''.listed isDir, list'.listed isDir]
              obtain ⟨_, middle, visited, frozen⟩ := bind_ok.mp looped
              have lists := list.children found isDir
              refine ⟨fuel, namedChildren entries, middle, rfl, loose, lists, forM_visits entries visited, ?_⟩
              intro done
              obtain ⟨fresh, whole⟩ := below lists
              exact whole ▸ done.freeze fresh found (not_not.mp mutable) frozen
          · next isFile =>
              have lists := listsChildren_nil found (by
                cases isKind : node.kind with
                | file => rfl
                | dir => exact absurd isKind isFile)
              refine ⟨fuel, [], _, rfl, loose, lists, .nil _, fun done => ?_⟩
              obtain ⟨fresh, whole⟩ := below lists
              exact whole ▸ done.freeze fresh found (not_not.mp mutable) rest

theorem stabilizeNode_freezes (planted : Planted fs)
    (start : Stabilized kinds streams rev revisions fs middle ∅) {fuel : Nat}
    (ran : Trail.stabilizeNode depth rev fuel id middle = .ok ((), next)) :
    Stabilized kinds streams rev revisions fs next (looseBelow fs.graph id) := by
  have frozen := planted.forest.visit_takes (stabilizeNode_takes planted depth rev) fuel start
    (fun _ impossible => absurd impossible (Set.notMem_empty _)) ran
  rwa [Set.empty_union] at frozen

open Classical in
/-- The committed vertices are frozen, and nothing else is changed in the graph. -/
theorem Stabilized.graph (stabilized : Stabilized kinds streams rev revisions fs middle cold) (planted : Planted fs)
    (loose : ∀ id ∈ cold, Loose fs.graph id) : middle.graph = freezing fs.graph cold := by
  funext id
  rw [freezing]
  cases found : fs.node id with
  | none =>
      have outside : id ∉ cold := by
        intro member
        obtain ⟨node, stored, -⟩ := loose_iff.mp (loose id member)
        rw [found] at stored
        cases stored
      rw [graph_none.mpr found, graph_none.mpr ((stabilized.nodes id outside).trans found), Option.map_none]
  | some node =>
      have listed : middle.listed node = fs.listed node := by
        cases isKind : node.kind with
        | file => rw [listed_file isKind, listed_file isKind]
        | dir =>
            obtain ⟨entries, list, -⟩ := planted.lists found isKind
            rw [list.listed isKind, (stabilized.listOf found isKind list).listed isKind]
      rw [graph_of_node found, Option.map_some]
      by_cases member : id ∈ cold
      · have same : middle.listed { node with rev := some rev } = middle.listed node := listed_congr rfl fun _ => rfl
        rw [graph_of_node (stabilized.frozen id member node found), if_pos member, Filesystem.vertex, same, listed]
        rfl
      · rw [graph_of_node ((stabilized.nodes id member).trans found), if_neg member, Filesystem.vertex, listed]
        rfl

end Stabilizing

section Committing

variable {streams : List Trail.Stream} {fs next : Filesystem} {depth txn rev : Nat}

/-- The root of the transaction becomes that of the new revision. All trees stay as they are. -/
theorem Tidy.commitTxn (tidy : Tidy streams fs) (ran : Trail.commitTxn depth txn fs = .ok (rev, next)) :
    Tidy streams next ∧ (∃ record, fs.txns.lookup txn = some record ∧
      next.revisions = fs.revisions ++ [record.root]) ∧ next.txns.lookup txn = none ∧
      (∀ other, other ≠ txn → next.txns.lookup other = fs.txns.lookup other) ∧
      (∀ {id tree}, Shows fs.graph id tree → Shows next.graph id tree) := by
  classical
  have whole := ran
  obtain ⟨record, fs, got, afterTxn⟩ := bind_ok.mp ran
  obtain ⟨stored, rfl⟩ := Trail.getTxn_ok got
  obtain ⟨top, fs, isRoot, afterRoot⟩ := bind_ok.mp afterTxn
  obtain ⟨isTop, rfl⟩ := Trail.getNodeRevision_ok.mp isRoot
  obtain ⟨number, middle, put, rest⟩ := bind_ok.mp afterRoot
  cases put
  obtain ⟨_, frozen, stabilized, rest'⟩ := bind_ok.mp rest
  obtain ⟨_, last, erased, final⟩ := bind_ok.mp rest'
  obtain ⟨rfl, rfl⟩ := pure_ok.mp final
  have planted := tidy.planted
  have forest := planted.forest
  obtain ⟨kinds, lists, sound⟩ := tidy.sound
  have start : Stabilized kinds streams fs.revisions.length (fs.revisions ++ [record.root]) fs
      { fs with revisions := fs.revisions ++ [record.root] } ∅ :=
    ⟨⟨lists, sound.congr rfl rfl⟩, fun _ impossible => absurd impossible (Set.notMem_empty _), fun _ _ => rfl,
      fun _ _ key _ _ _ => KeepsList.refl fs.store key, fun _ immutable => immutable, rfl, rfl⟩
  have cold := stabilizeNode_freezes planted start stabilized
  have graph := cold.graph planted fun _ member => member.1
  obtain ⟨freezes, shows⟩ : Forest (freezing fs.graph (looseBelow fs.graph record.root)) fs.tops ∧
      ∀ {id tree}, Shows fs.graph id tree → Shows (freezing fs.graph (looseBelow fs.graph record.root)) id tree :=
    forest.freeze fun ⟨_, reach⟩ edge loose => ⟨loose, reach.tail ⟨_, edge⟩⟩
  obtain ⟨nodes, store, revisions, gone, others⟩ := deleteTxn_ok erased
  have node (id : NodeId) : next.node id = frozen.node id := by rw [Filesystem.node, Filesystem.node, nodes]
  have graph' : next.graph = freezing fs.graph (looseBelow fs.graph record.root) :=
    (graph_congr nodes store).trans graph
  have before {other : Nat} {found : Txn} (isFound : next.txns.lookup other = some found) :
      other ≠ txn ∧ fs.txns.lookup other = some found := by
    have distinct : other ≠ txn := by
      rintro rfl
      rw [gone] at isFound
      cases isFound
    rw [others other distinct, cold.txns] at isFound
    exact ⟨distinct, isFound⟩
  have back {id : NodeId} {node' : NodeRev} (found : next.node id = some node') :
      ∃ node, fs.node id = some node ∧ node'.kind = node.kind ∧ node'.dataKey = node.dataKey ∧
        (node'.rev = none → id ∉ looseBelow fs.graph record.root ∧ node.rev = none) := by
    rw [node] at found
    by_cases member : id ∈ looseBelow fs.graph record.root
    · obtain ⟨old, isOld, -⟩ := loose_iff.mp member.1
      rw [cold.frozen id member old isOld] at found
      cases found
      exact ⟨old, isOld, rfl, rfl, fun impossible => by cases impossible⟩
    · rw [cold.nodes id member] at found
      exact ⟨node', found, rfl, rfl, fun mutable => ⟨member, mutable⟩⟩
  have loose {id : NodeId} : Loose next.graph id ↔ id ∉ looseBelow fs.graph record.root ∧ Loose fs.graph id := by
    constructor
    · intro isLoose
      obtain ⟨node', found, mutable⟩ := loose_iff.mp isLoose
      obtain ⟨old, isOld, -, -, was⟩ := back found
      exact ⟨(was mutable).1, (loose_node isOld).mpr (was mutable).2⟩
    · rintro ⟨outside, isLoose⟩
      obtain ⟨old, isOld, mutable⟩ := loose_iff.mp isLoose
      exact (loose_node ((node id).trans ((cold.nodes id outside).trans isOld))).mpr mutable
  have committed {id : NodeId} (there : ∃ node, fs.node id = some node ∧ node.rev ≠ none) :
      ∃ node, next.node id = some node ∧ node.rev ≠ none := by
    obtain ⟨old, isOld, flag⟩ := there
    exact ⟨old, (node id).trans ((cold.nodes id fun member => not_loose isOld flag member.1).trans isOld), flag⟩
  refine ⟨⟨⟨kinds, Trail.keeps_deleteTxn txn _ cold.sound _ _ erased⟩,
    Trail.changes_commitTxn closed_files depth txn _ tidy.archived _ _ whole, ?_, ?_, ?_, ?_, ?_, ?_⟩,
    ⟨record, stored, revisions.trans cold.revisions⟩, gone,
    fun other distinct => (others other distinct).trans (by rw [cold.txns]), fun shown => graph' ▸ shows shown⟩
  · intro id node' found isDir
    obtain ⟨old, isOld, kind, data, -⟩ := back found
    obtain ⟨entries, list, proper⟩ := planted.lists isOld (kind.symm.trans isDir)
    refine ⟨entries, ?_, proper⟩
    rw [ListOf, store]
    exact (cold.listOf isOld (kind.symm.trans isDir) list).congr data
  · intro id other node' found' key isNode isFound distinct dir dir' named named'
    obtain ⟨old, isOld, kind, data, -⟩ := back isNode
    obtain ⟨old', isOld', kind', data', -⟩ := back isFound
    rw [store]
    exact cold.immutable key (planted.owned isOld isOld' distinct (kind.symm.trans dir) (kind'.symm.trans dir')
      (data.symm.trans named) (data'.symm.trans named'))
  · rw [graph']
    refine freezes.reroot ?_
    rintro root ⟨other, found, isFound, rfl⟩
    exact Or.inl ⟨other, found, (before isFound).2, rfl⟩
  · intro other found isFound
    obtain ⟨distinct, isFound⟩ := before isFound
    obtain ⟨base, root⟩ := planted.txns isFound
    exact ⟨committed base, root.imp_right fun isLoose =>
      loose.mpr ⟨planted.rootApart stored isFound distinct, isLoose⟩⟩
  · intro one two found found' isOne isTwo isLoose same
    exact planted.apart (before isOne).2 (before isTwo).2 (loose.mp isLoose).2 same
  · intro root member
    rw [revisions, cold.revisions] at member
    rcases List.mem_append.mp member with earlier | new
    · exact committed (planted.revisions root earlier)
    · obtain rfl := List.mem_singleton.mp new
      by_cases flag : top.rev = none
      · have isCold : record.root ∈ looseBelow fs.graph record.root := ⟨(loose_node isTop).mpr flag, .refl⟩
        exact ⟨_, (node _).trans (cold.frozen _ isCold top isTop), by simp⟩
      · exact committed ⟨top, isTop, flag⟩

end Committing

end Subversion.Fs
