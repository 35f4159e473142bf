/-
This file shows how single steps of trails change the graph of nodes.
-/

import Subversion.Fs.NodeGraphs

namespace Subversion.Fs

open Delta SharedTrees Transactions

/-- All that holds within a trail. -/
structure Tidy (streams : List Trail.Stream) (fs : Filesystem) : Prop where
  sound : Trail.SoundIn streams fs
  archived : ∃ files, Archived files fs
  planted : Planted fs

theorem closed_files : Trail.Closed (fun _ _ => True) fun fs => ∃ files, Archived files fs where
  step := by
    rintro fs next ⟨files, archived⟩ change
    obtain ⟨more, -, after⟩ := archived.step change
    exact ⟨more, after⟩
  reps := fun ⟨_, archived⟩ => archived.reps
  grounded := fun ⟨_, archived⟩ => archived.grounded

section Lightness

variable {fs next : Filesystem} {id : NodeId} {node : NodeRev}

theorem Light.listOf (light : Light fs next) (found : fs.node id = some node) {node' : NodeRev}
    (found' : next.node id = some node') (isDir : node.kind = .dir) {entries : List Entry}
    (list : ListOf fs node entries) : ListOf next node' entries := by
  obtain ⟨other, stored, -, data⟩ := light.kept id node found
  rw [found'] at stored
  cases stored
  exact (list.keeps fun key named => light.lists id node key found isDir named).congr (data isDir)

theorem Light.alike (planted : Planted fs) (light : Light fs next)
    (revs : ∀ id node node', fs.node id = some node → next.node id = some node' →
      node'.rev.isSome = node.rev.isSome) : Alike fs.graph next.graph := by
  constructor
  · intro id vertex present
    obtain ⟨node, found, rfl⟩ := Option.map_eq_some_iff.mp present
    obtain ⟨node', found', kind, data⟩ := light.kept id node found
    refine ⟨_, graph_of_node found', revs id node node' found found', ?_⟩
    rw [Filesystem.vertex, Filesystem.vertex]
    cases isKind : node.kind with
    | file => rw [listed_file isKind, listed_file (kind.trans isKind)]
    | dir =>
        obtain ⟨entries, list, -⟩ := planted.lists found isKind
        rw [list.listed isKind, (light.listOf found found' isKind list).listed (kind.trans isKind)]
  · intro id vertex present
    obtain ⟨node', found', -⟩ := Option.map_eq_some_iff.mp present
    obtain ⟨node, found⟩ := light.old id node' found'
    exact ⟨_, graph_of_node found⟩

/-- Nodes with the same lists and the same kinds are planted as before. -/
theorem Planted.light (planted : Planted fs) (light : Light fs next)
    (revs : ∀ id node node', fs.node id = some node → next.node id = some node' →
      node'.rev.isSome = node.rev.isSome) : Planted next := by
  have alike := light.alike planted revs
  have back {id : NodeId} {node' : NodeRev} (found' : next.node id = some node') :
      ∃ node, fs.node id = some node ∧ node'.kind = node.kind ∧
        (node.kind = .dir → node'.dataKey = node.dataKey) := by
    obtain ⟨node, found⟩ := light.old id node' found'
    obtain ⟨other, stored, same⟩ := light.kept id node found
    rw [found'] at stored
    cases stored
    exact ⟨node, found, same⟩
  have committed {id : NodeId} (there : ∃ node, fs.node id = some node ∧ node.rev ≠ none) :
      ∃ node, next.node id = some node ∧ node.rev ≠ none := by
    obtain ⟨node, found, committed⟩ := there
    obtain ⟨node', found', -⟩ := light.kept id node found
    have flag := revs id node node' found found'
    refine ⟨node', found', fun mutable => committed ?_⟩
    rw [mutable] at flag
    exact Option.isSome_eq_false_iff.mp flag.symm |> Option.isNone_iff_eq_none.mp
  have tops : next.tops = fs.tops := by rw [Filesystem.tops, Filesystem.tops, light.txns]
  refine ⟨?_, ?_, tops ▸ planted.forest.relabeled alike, ?_, ?_, ?_⟩
  · intro id node' found' isDir
    obtain ⟨node, found, kind, -⟩ := back found'
    obtain ⟨entries, list, proper⟩ := planted.lists found (kind.symm.trans isDir)
    exact ⟨entries, light.listOf found found' (kind.symm.trans isDir) list, proper⟩
  · intro first second node' found' key isFirst isSecond distinct dir dir' named named'
    obtain ⟨node, stored, kind, data⟩ := back isFirst
    obtain ⟨found, present, kind', data'⟩ := back isSecond
    refine light.immutable key (planted.owned stored present distinct (kind.symm.trans dir)
      (kind'.symm.trans dir') ?_ ?_)
    · exact (data (kind.symm.trans dir)).symm.trans named
    · exact (data' (kind'.symm.trans dir')).symm.trans named'
  · intro txn record stored
    rw [light.txns] at stored
    obtain ⟨base, root⟩ := planted.txns stored
    exact ⟨committed base, root.imp_right alike.loose.mpr⟩
  · intro txn other record found stored stored' loose same
    rw [light.txns] at stored stored'
    exact planted.apart stored stored' (alike.loose.mp loose) same
  · intro root member
    rw [light.revisions] at member
    exact committed (planted.revisions root member)

theorem Planted.steady {kinds : Nat → NodeKind} {streams : List Trail.Stream} (planted : Planted fs)
    (steady : Steady kinds streams fs next) : Planted next ∧ next.graph = fs.graph := by
  have same (id : NodeId) : next.node id = fs.node id := Trail.Steady.node steady id
  constructor
  · refine planted.light steady.light fun id node node' found found' => ?_
    rw [same, found] at found'
    cases found'
    rfl
  · funext id
    refine graph_same (same id) fun node found isDir => ?_
    obtain ⟨entries, list, -⟩ := planted.lists found isDir
    rw [list.listed isDir, (steady.light.listOf found ((same id).trans found) isDir list).listed isDir]

/-- Only one node gets another face. -/
theorem Planted.reface (planted : Planted fs) (light : Light fs next) (found : fs.node id = some node)
    {new : NodeRev} (placed : next.node id = some new) (rev : new.rev = node.rev)
    (others : ∀ other, other ≠ id → next.node other = fs.node other) : Planted next ∧
      next.graph = Function.update fs.graph id (some { fs.vertex node with label := new.face }) := by
  obtain ⟨same, stored, kind, data⟩ := light.kept id node found
  rw [placed] at stored
  cases stored
  constructor
  · refine planted.light light fun other older newer stored stored' => ?_
    by_cases same : other = id
    · subst same
      rw [found] at stored
      rw [placed] at stored'
      cases stored
      cases stored'
      rw [rev]
    · rw [others other same, stored] at stored'
      cases stored'
      rfl
  · funext other
    by_cases same : other = id
    · subst same
      rw [Function.update_self, graph_of_node placed, Filesystem.vertex, Filesystem.vertex, rev]
      cases isKind : node.kind with
      | file => rw [listed_file isKind, listed_file (kind.trans isKind)]
      | dir =>
          obtain ⟨entries, list, -⟩ := planted.lists found isKind
          rw [list.listed isKind, (light.listOf found placed isKind list).listed (kind.trans isKind)]
    · rw [Function.update_of_ne same]
      refine graph_same (others other same) fun node stored isDir => ?_
      obtain ⟨entries, list, -⟩ := planted.lists stored isDir
      rw [list.listed isDir, (light.listOf stored ((others other same).trans stored) isDir list).listed isDir]

end Lightness

/-- Only the node of this id and its list are changed. -/
structure Elsewhere (fs next : Filesystem) (id : NodeId) : Prop where
  nodes : ∀ other, other ≠ id → next.node other = fs.node other
  lists : ∀ other node key, other ≠ id → fs.node other = some node → node.kind = .dir →
    node.dataKey = some key → KeepsList fs.store next.store key
  immutable : ∀ key, Immutable fs.store key → Immutable next.store key
  txns : next.txns = fs.txns
  revisions : next.revisions = fs.revisions

section Elsewhere

variable {fs next : Filesystem} {id : NodeId} {node : NodeRev}

theorem Elsewhere.putNode (fs : Filesystem) (id : NodeId) (node : NodeRev) : Elsewhere fs (fs.putNode id node) id :=
  ⟨fun other distinct => by rw [Filesystem.node_putNode, if_neg distinct],
    fun _ _ key _ _ _ _ => KeepsList.refl fs.store key, fun _ immutable => immutable, rfl, rfl⟩

theorem Elsewhere.listOf (elsewhere : Elsewhere fs next id) {other : NodeId} (distinct : other ≠ id)
    (found : fs.node other = some node) (isDir : node.kind = .dir) {entries : List Entry}
    (list : ListOf fs node entries) : ListOf next node entries :=
  list.keeps fun key named => elsewhere.lists other node key distinct found isDir named

theorem Elsewhere.graph (elsewhere : Elsewhere fs next id) (planted : Planted fs) :
    next.graph = Function.update fs.graph id (next.graph id) := by
  funext other
  by_cases same : other = id
  · rw [same, Function.update_self]
  · rw [Function.update_of_ne same]
    refine graph_same (elsewhere.nodes other same) fun node found isDir => ?_
    obtain ⟨entries, list, -⟩ := planted.lists found isDir
    rw [list.listed isDir, (elsewhere.listOf same found isDir list).listed isDir]

theorem Elsewhere.tops (elsewhere : Elsewhere fs next id) : next.tops = fs.tops := by
  rw [Filesystem.tops, Filesystem.tops, elsewhere.txns]

/-- A node that is new or can be changed becomes another one that can be changed. -/
theorem Planted.elsewhere (planted : Planted fs) (elsewhere : Elsewhere fs next id)
    (was : fs.node id = none ∨ Loose fs.graph id) (found : next.node id = some node) (mutable : node.rev = none)
    (list : node.kind = .dir → ∃ entries, ListOf next node entries ∧ ∀ entry ∈ entries, ProperEntry entry)
    (owns : ∀ other found key, other ≠ id → node.kind = .dir → fs.node other = some found → found.kind = .dir →
      node.dataKey = some key → found.dataKey = some key → Immutable next.store key)
    (forest : Forest next.graph next.tops) : Planted next := by
  have committed {root : NodeId} (there : ∃ node, fs.node root = some node ∧ node.rev ≠ none) :
      ∃ node, next.node root = some node ∧ node.rev ≠ none := by
    obtain ⟨other, stored, committed⟩ := there
    refine ⟨other, (elsewhere.nodes root ?_).trans stored, committed⟩
    rintro rfl
    rcases was with none | loose
    · rw [stored] at none
      cases none
    · exact committed ((loose_node stored).mp loose)
  have loose {root : NodeId} : Loose fs.graph root → Loose next.graph root := by
    intro isLoose
    by_cases same : root = id
    · exact same ▸ (loose_node found).mpr mutable
    · obtain ⟨other, stored, isMutable⟩ := loose_iff.mp isLoose
      exact (loose_node ((elsewhere.nodes root same).trans stored)).mpr isMutable
  have back {root : NodeId} (isTop : root ∈ fs.tops) (isLoose : Loose next.graph root) : Loose fs.graph root := by
    by_cases same : root = id
    · obtain ⟨other, stored⟩ := planted.node_of_tops isTop
      rcases was with none | was
      · rw [← same, stored] at none
        cases none
      · exact same ▸ was
    · obtain ⟨other, stored, isMutable⟩ := loose_iff.mp isLoose
      rw [elsewhere.nodes root same] at stored
      exact (loose_node stored).mpr isMutable
  refine ⟨?_, ?_, forest, ?_, ?_, ?_⟩
  · intro other found' stored isDir
    by_cases same : other = id
    · rw [same, found] at stored
      cases stored
      exact list isDir
    · rw [elsewhere.nodes other same] at stored
      obtain ⟨entries, listed, proper⟩ := planted.lists stored isDir
      exact ⟨entries, elsewhere.listOf same stored isDir listed, proper⟩
  · intro first second one two key isFirst isSecond distinct dir dir' named named'
    by_cases same : first = id
    · rw [same, found] at isFirst
      cases isFirst
      have other : second ≠ id := same ▸ distinct.symm
      rw [elsewhere.nodes second other] at isSecond
      exact owns second two key other dir isSecond dir' named named'
    · rw [elsewhere.nodes first same] at isFirst
      by_cases same' : second = id
      · rw [same', found] at isSecond
        cases isSecond
        exact owns first one key same dir' isFirst dir named' named
      · rw [elsewhere.nodes second same'] at isSecond
        exact elsewhere.immutable key (planted.owned isFirst isSecond distinct dir dir' named named')
  · intro txn record stored
    rw [elsewhere.txns] at stored
    obtain ⟨base, root⟩ := planted.txns stored
    exact ⟨committed base, root.imp_right loose⟩
  · intro txn other record found stored stored' isLoose same
    rw [elsewhere.txns] at stored stored'
    exact planted.apart stored stored' (back ⟨txn, record, stored, rfl⟩ isLoose) same
  · intro root member
    rw [elsewhere.revisions] at member
    exact committed (planted.revisions root member)

end Elsewhere

/-- The other lists are kept, and what is immutable stays so. -/
structure SparesLists (store next : Store) (key : Nat) : Prop where
  lists : ∀ other, other ≠ key → KeepsList store next other
  immutable : ∀ other, Immutable store other → Immutable next other

section Sparing

variable {store middle next : Store} {key : Nat}

theorem SparesLists.trans (first : SparesLists store middle key) (second : SparesLists middle next key) :
    SparesLists store next key :=
  ⟨fun other distinct => (first.lists other distinct).trans (second.lists other distinct),
    fun other immutable => second.immutable other (first.immutable other immutable)⟩

theorem SparesLists.op (reachable : RepsReachable store) {op : RepOp} {depth : Nat}
    (ran : runRepOp store depth op = .ok next) (leaves : ∀ other, other ≠ key → op.Leaves store other) :
    SparesLists store next key :=
  ⟨fun other distinct => KeepsList.op reachable ran (leaves other distinct),
    fun _ immutable => Immutable.persists reachable ran immutable⟩

theorem Rewritten.spares {rep : Rep} {text : Bytes} (rewritten : Rewritten store next key rep text) :
    SparesLists store next key := by
  refine ⟨fun other distinct => rewritten.replaces.keepsList distinct, ?_⟩
  rintro other ⟨found, stored, flag⟩
  have distinct : other ≠ key := by
    rintro rfl
    rw [rewritten.found] at stored
    cases stored
    rw [rewritten.mutable] at flag
    cases flag
  exact ⟨found, (rewritten.replaces.other distinct).trans stored, flag⟩

end Sparing

/-- No other directory keeps its list in this rep. -/
def SoleList (fs : Filesystem) (id : NodeId) (key : Nat) : Prop :=
  ∀ other node, other ≠ id → fs.node other = some node → node.kind = .dir → node.dataKey ≠ some key

section Entries

variable {kinds : Nat → NodeKind} {streams : List Trail.Stream} {fs middle next : Filesystem} {id : NodeId}
  {node : NodeRev} {key depth : Nat}

theorem Elsewhere.setStore (elsewhere : Elsewhere fs middle id) (sole : SoleList fs id key) {store : Store}
    (spares : SparesLists middle.store store key) : Elsewhere fs (middle.setStore store) id := by
  refine ⟨elsewhere.nodes, fun other node found distinct stored isDir named => ?_,
    fun other immutable => spares.immutable other (elsewhere.immutable other immutable), elsewhere.txns,
    elsewhere.revisions⟩
  refine (elsewhere.lists other node found distinct stored isDir named).trans (spares.lists found ?_)
  rintro rfl
  exact sole other node distinct stored isDir named

/-- A mutable rep belongs to one directory only. -/
theorem mutableDataKey_elsewhere {lists : Set Nat} (sound : Sound lists kinds streams fs) (planted : Planted fs)
    (found : fs.node id = some node) (isDir : node.kind = .dir)
    (ran : Trail.mutableDataKey depth id node fs = .ok (key, next)) :
    Elsewhere fs next id ∧ SoleList fs id key ∧ next.node id = some { node with dataKey := some key } := by
  obtain ⟨store, got, ends⟩ := Trail.mutableDataKey_ok.mp ran
  have sole : SoleList fs id key := by
    intro other node' distinct stored isDir' named
    rcases sound.invariant.getMutableRep_replaces got with ⟨same, -, rep, present, mutable⟩ | ⟨rfl, -⟩
    · obtain ⟨rep', present', flag⟩ := planted.owned found stored distinct.symm isDir isDir' same named
      rw [present] at present'
      cases present'
      rw [mutable] at flag
      cases flag
    · exact lt_irrefl _ ((sound.fits stored).data _ named).1
  have spares : SparesLists fs.store store key :=
    SparesLists.op sound.reps
      (show runRepOp fs.store depth (.getMutable node.dataKey) = .ok store by rw [runRepOp, got]; rfl)
      fun _ _ => trivial
  have elsewhere : Elsewhere fs (fs.setStore store) id :=
    ⟨fun _ _ => rfl, fun other node' found' distinct stored isDir' named => spares.lists found' (by
      rintro rfl
      exact sole other node' distinct stored isDir' named), spares.immutable, rfl, rfl⟩
  split at ends
  · next same =>
      subst ends
      exact ⟨elsewhere, sole, by rw [Filesystem.node_setStore, found, ← same]⟩
  · obtain ⟨-, rfl⟩ := ends
    refine ⟨⟨fun other distinct => ?_, elsewhere.lists, elsewhere.immutable, rfl, rfl⟩, sole, ?_⟩
    · rw [Filesystem.node_putNode, if_neg distinct, Filesystem.node_setStore]
    · rw [Filesystem.node_putNode, if_pos rfl]

/-- Only the list of the directory is written. -/
theorem setEntryUnchecked_elsewhere {lists : Set Nat} (sound : Sound lists kinds streams fs) (planted : Planted fs)
    (found : fs.node id = some node) (isDir : node.kind = .dir) {name : Bytes} {child : NodeId} {value : Unit}
    (ran : Trail.setEntryUnchecked depth id name child fs = .ok (value, next)) :
    ∃ key, Elsewhere fs next id ∧ SoleList fs id key ∧ next.node id = some { node with dataKey := some key } := by
  simp only [Trail.setEntryUnchecked, bind_ok, Trail.getNodeRevision_ok] at ran
  obtain ⟨_, _, ⟨again, rfl⟩, key, middle, keyed, ran⟩ := ran
  rw [found] at again
  cases again
  obtain ⟨elsewhere, sole, placed⟩ := mutableDataKey_elsewhere sound planted found isDir keyed
  have reached := Trail.mutableDataKey_reachable sound.reps keyed
  obtain ⟨store, rfl, spares⟩ : ∃ store, next = middle.setStore store ∧ SparesLists middle.store store key := by
    split at ran
    · next unnamed =>
        obtain ⟨first, rep, lists', wrote, started, -⟩ := sound.startList found isDir unnamed keyed
        rw [bind_ok] at ran
        obtain ⟨_, last, written, ran⟩ := ran
        rw [Trail.streamWrite_ok wrote] at written
        subst written
        obtain ⟨_, _, store, _, _, _, rewritten, rfl⟩ := Trail.rewriteEntries_ok started.reps ran
        have begins : SparesLists middle.store first key :=
          SparesLists.op reached (show runRepOp middle.store 0 (.write key emptyListText) = .ok first from wrote)
            fun _ distinct => distinct
        exact ⟨store, rfl, begins.trans rewritten.spares⟩
    · obtain ⟨_, _, store, _, _, _, rewritten, rfl⟩ := Trail.rewriteEntries_ok reached ran
      exact ⟨store, rfl, rewritten.spares⟩
  exact ⟨key, elsewhere.setStore sole spares, sole, placed⟩

theorem Tidy.proper (tidy : Tidy streams fs) (found : fs.node id = some node) :
    id ≠ [] ∧ WithinLimit id := by
  obtain ⟨kinds, lists, sound⟩ := tidy.sound
  obtain ⟨shaped, within, -⟩ := sound.nodes id node found
  refine ⟨?_, within⟩
  rintro rfl
  obtain ⟨number, revision, rest, impossible, -⟩ := shaped
  cases impossible

/-- The directory has the child under this name. -/
structure Entered (streams : List Trail.Stream) (fs next : Filesystem) (id : NodeId) (node : NodeRev)
    (name : Bytes) (child : NodeId) : Prop where
  tidy : Tidy streams next
  elsewhere : Elsewhere fs next id
  placed : ∃ key, next.node id = some { node with dataKey := some key }
  edge : Edge next.graph id name child
  modifies : ∀ {branch}, Shows fs.graph child branch →
    Modifies fs.graph next.graph id (Tree.graft name (some branch))

/-- A directory that can be changed gets a child. -/
theorem Tidy.setEntryUnchecked (tidy : Tidy streams fs) (found : fs.node id = some node)
    (isDir : node.kind = .dir) (mutable : node.rev = none) {name : Bytes} {child : NodeId}
    (single : isSinglePathComponent name = true) (attachable : Attachable fs.graph fs.tops id child)
    {value : Unit} (ran : Trail.setEntryUnchecked depth id name child fs = .ok (value, next)) :
    Entered streams fs next id node name child := by
  obtain ⟨kinds, lists, sound⟩ := tidy.sound
  obtain ⟨vertex, present⟩ := attachable.there
  obtain ⟨childNode, isChild, -⟩ := Option.map_eq_some_iff.mp present
  obtain ⟨nonempty, within⟩ := tidy.proper isChild
  obtain ⟨key, elsewhere, sole, placed⟩ := setEntryUnchecked_elsewhere sound tidy.planted found isDir ran
  obtain ⟨lists', key', rep, entries, after, list, owns, -⟩ := sound.setEntryUnchecked found isDir ran
  obtain rfl : key = key' := by
    have same := placed.symm.trans owns.keyed
    cases same
    rfl
  have listed : ListOf next { node with dataKey := some key } (tweakEntry entries name (unparseId child)) :=
    Or.inr ⟨key, rep, rfl, owns.stored, owns.holds⟩
  let grown : Graph NodeId Bytes Face := Function.update fs.graph id (some { fs.vertex node with
    edge := Function.update (fs.vertex node).edge name (some child) })
  have graph : next.graph = grown := by
    dsimp only [grown]
    rw [elsewhere.graph tidy.planted, graph_of_node placed, Filesystem.vertex, listed.listed isDir,
      childOf_tweakEntry entries name nonempty within, Filesystem.vertex, list.listed isDir, NodeRev.face,
      NodeRev.face, if_pos isDir, if_pos isDir]
  have loose : (fs.vertex node).frozen = false := by
    rw [Filesystem.vertex, mutable]
    rfl
  have isLoose : Loose fs.graph id := (loose_node found).mpr mutable
  have grafted (branch : Tree Bytes Face) (shows : Shows fs.graph child branch) :
      Forest grown fs.tops ∧ Modifies fs.graph grown id (Tree.graft name (some branch)) :=
    tidy.planted.forest.graft (graph_of_node found) loose rfl (fun _ same => Option.some.inj same ▸ attachable)
      (fun _ _ same same' => Option.some.inj same ▸ Option.some.inj same' ▸ shows)
  obtain ⟨branch, shows⟩ := tidy.planted.forest.trees child vertex present
  refine ⟨⟨⟨kinds, lists', after⟩, ?_, ?_⟩, elsewhere, ⟨key, placed⟩, ?_,
    fun {branch} shows => graph ▸ (grafted branch shows).2⟩
  · refine Trail.changes_setEntryUnchecked closed_files tidy.archived ⟨lists, sound⟩ (fun other stored => ?_) ran
    rw [found] at stored
    cases stored
    exact ⟨mutable, isDir⟩
  · refine tidy.planted.elsewhere elsewhere (Or.inr isLoose) placed mutable (fun _ => ⟨_, listed, ?_⟩) ?_ ?_
    · intro entry member
      obtain ⟨entries', list', proper⟩ := tidy.planted.lists found isDir
      obtain rfl : entries = entries' := by rw [← list.listed isDir, list'.listed isDir]
      rcases mem_tweakEntry member with old | rfl
      · exact proper entry old
      · exact ⟨single, child, by rw [parseId_unparseId child nonempty, if_pos within]⟩
    · intro other found' key' distinct _ stored isDir' named named'
      cases named
      exact absurd named' (sole other found' distinct stored isDir')
    · rw [elsewhere.tops, graph]
      exact (grafted branch shows).1
  · rw [graph, edge_update_self]
    exact Function.update_self _ _ _

end Entries

section Creation

variable {streams : List Trail.Stream} {fs : Filesystem} {id : NodeId} {node : NodeRev}

/-- The node has no list, or that of a committed node. -/
def Borrows (fs : Filesystem) (node : NodeRev) : Prop :=
  node.dataKey = none ∨ ∃ source found, fs.node source = some found ∧ found.rev ≠ none ∧
    node.kind = found.kind ∧ node.dataKey = found.dataKey

theorem Borrows.frozen (borrows : Borrows fs node) (planted : Planted fs) {name : Bytes} {child : NodeId}
    (isChild : childOf (fs.listed node) name = some child) :
    (∃ vertex, fs.graph child = some vertex) ∧ ¬ Loose fs.graph child := by
  rcases borrows with unnamed | ⟨source, found, stored, committed, kind, data⟩
  · rw [listed_empty unnamed] at isChild
    cases isChild
  · rw [listed_congr kind fun _ => data] at isChild
    have edge : Edge fs.graph source name child := edge_iff.mpr ⟨found, stored, isChild⟩
    exact ⟨planted.forest.closed edge, planted.forest.reach_frozen (not_loose stored committed)
      (.single ⟨name, edge⟩)⟩

/-- A new node that can be changed is not in any tree. -/
theorem Tidy.putNew (tidy : Tidy streams fs) (free : fs.node id = none) (mutable : node.rev = none)
    (borrows : Borrows fs node) : Planted (fs.putNode id node) ∧
      (∀ {other tree}, Shows fs.graph other tree → Shows (fs.putNode id node).graph other tree) ∧
      (∀ parent, Loose fs.graph parent → ¬ Reach (fs.putNode id node).graph id parent) ∧
      id ∉ fs.tops ∧ ∀ parent name, ¬ Edge (fs.putNode id node).graph parent name id := by
  have planted := tidy.planted
  obtain ⟨files, archived⟩ := tidy.archived
  have elsewhere := Elsewhere.putNode fs id node
  have placed : (fs.putNode id node).node id = some node := by rw [Filesystem.node_putNode, if_pos rfl]
  have flag : (fs.vertex node).frozen = false := by
    rw [Filesystem.vertex, mutable]
    rfl
  obtain ⟨forest, shown⟩ := planted.forest.add (graph_none.mpr free) flag fun name child isChild =>
    borrows.frozen planted isChild
  rw [← graph_putNode] at forest shown
  refine ⟨?_, shown, fun parent loose => ?_, ?_, ?_⟩
  · refine planted.elsewhere elsewhere (Or.inl free) placed mutable (fun isDir => ?_) ?_ forest
    · rcases borrows with unnamed | ⟨source, found, stored, committed, kind, data⟩
      · exact ⟨[], Or.inl ⟨unnamed, rfl⟩, fun _ impossible => absurd impossible List.not_mem_nil⟩
      · obtain ⟨entries, list, proper⟩ := planted.lists stored (kind.symm.trans isDir)
        exact ⟨entries, (show ListOf fs node entries from list.congr data), proper⟩
    · intro other found key distinct isDir stored isDir' named named'
      rcases borrows with unnamed | ⟨source, origin, isSource, committed, kind, data⟩
      · rw [unnamed] at named
        cases named
      · exact (archived.frozen source origin isSource committed).2 key (Or.inr (data.symm.trans named))
  · intro reach
    rcases Relation.ReflTransGen.cases_head reach with rfl | ⟨child, ⟨name, edge⟩, rest⟩
    · obtain ⟨other, stored, -⟩ := loose_iff.mp loose
      rw [free] at stored
      cases stored
    · obtain ⟨other, stored, isChild⟩ := edge_iff.mp edge
      rw [placed] at stored
      cases stored
      obtain ⟨⟨vertex, there⟩, frozen⟩ := borrows.frozen planted isChild
      have apart {last : NodeId} (known : ∃ node, fs.node last = some node) : last ≠ id := by
        rintro rfl
        obtain ⟨other, stored⟩ := known
        rw [free] at stored
        cases stored
      have same {last : NodeId} (known : ∃ node, fs.node last = some node) :
          Loose (fs.putNode id node).graph last ↔ Loose fs.graph last := by
        rw [loose_iff, loose_iff, Filesystem.node_putNode, if_neg (apart known)]
      obtain ⟨above, isParent, -⟩ := loose_iff.mp loose
      refine forest.reach_frozen (mt (same (exists_vertex.mp ⟨vertex, there⟩)).mp frozen) rest ?_
      exact (same ⟨above, isParent⟩).mpr loose
  · intro isTop
    obtain ⟨other, stored⟩ := planted.node_of_tops isTop
    rw [free] at stored
    cases stored
  · intro other name edge
    obtain ⟨found, stored, isChild⟩ := edge_iff.mp edge
    rw [Filesystem.node_putNode] at stored
    have there : ∃ vertex, fs.graph id = some vertex := by
      split at stored
      · cases stored
        exact (borrows.frozen planted isChild).1
      · exact planted.forest.closed (edge_iff.mpr ⟨found, stored, isChild⟩)
    obtain ⟨found, stored⟩ := exists_vertex.mp there
    rw [free] at stored
    cases stored

/-- A copy has the face and the entries of the copied node. -/
theorem Shows.copied {source : NodeId} {found : NodeRev} (stored : fs.node source = some found)
    (placed : fs.node id = some node) (kind : node.kind = found.kind) (prop : node.propKey = found.propKey)
    (data : node.dataKey = found.dataKey) {tree : Tree Bytes Face} (shows : Shows fs.graph source tree) :
    Shows fs.graph id tree := by
  refine shows.copy (graph_of_node stored) (graph_of_node placed) ?_ ?_
  · rw [Filesystem.vertex, Filesystem.vertex, NodeRev.face, NodeRev.face, kind, prop, data]
  · rw [Filesystem.vertex, Filesystem.vertex, listed_congr kind fun _ => data]

/-- The new node is put beside the others. -/
structure Added (streams : List Trail.Stream) (fs next : Filesystem) (id : NodeId) (node : NodeRev) : Prop where
  free : fs.node id = none
  same : next = fs.putNode id node
  tidy : Tidy streams next
  shows : ∀ {other tree}, Shows fs.graph other tree → Shows next.graph other tree
  apart : ∀ parent, Loose fs.graph parent → ¬ Reach next.graph id parent
  notTop : id ∉ fs.tops
  alone : ∀ parent name, ¬ Edge next.graph parent name id

theorem Added.placed {next : Filesystem} (added : Added streams fs next id node) : next.node id = some node := by
  rw [added.same, Filesystem.node_putNode, if_pos rfl]

theorem Added.attachable {next : Filesystem} (added : Added streams fs next id node) {parent : NodeId}
    (loose : Loose fs.graph parent) : Attachable next.graph next.tops parent id := by
  refine ⟨⟨_, graph_of_node added.placed⟩, added.apart parent loose, fun _ => ⟨?_, added.alone⟩⟩
  rw [added.same]
  exact added.notTop

theorem Added.others {next : Filesystem} (added : Added streams fs next id node) {other : NodeId}
    {found : NodeRev} (stored : fs.node other = some found) : next.node other = some found := by
  rw [added.same, Filesystem.node_putNode, if_neg, stored]
  rintro rfl
  rw [added.free] at stored
  cases stored

theorem Added.edge {next : Filesystem} (added : Added streams fs next id node) {parent child : NodeId}
    {name : Bytes} (edge : Edge fs.graph parent name child) : Edge next.graph parent name child := by
  obtain ⟨found, stored, isChild⟩ := edge_iff.mp edge
  refine edge_iff.mpr ⟨found, added.others stored, ?_⟩
  rw [added.same]
  exact isChild

theorem Added.way {next : Filesystem} (added : Added streams fs next id node) {top last : NodeId}
    {names : List Bytes} (way : Way fs.graph top names last) : Way next.graph top names last := by
  induction way with
  | here top => exact .here top
  | down edge _ ih => exact .down (added.edge edge) ih

theorem Added.loose {next : Filesystem} (added : Added streams fs next id node) {other : NodeId}
    (loose : Loose fs.graph other) : Loose next.graph other := by
  obtain ⟨found, stored, mutable⟩ := loose_iff.mp loose
  exact (loose_node (added.others stored)).mpr mutable

theorem Tidy.create (tidy : Tidy streams fs) {next : Filesystem}
    (ran : Trail.createNode node fs = .ok (id, next)) (mutable : node.rev = none) (borrows : Borrows fs node)
    (fits : ∀ kinds lists, Sound lists kinds streams fs → Fits lists fs.store.nextRep node)
    (change : newNodeId fs.nodes = .ok id → WithinLimit id → Change (fun _ _ => True) fs (fs.putNode id node)) :
    Added streams fs next id node := by
  obtain ⟨chosen, within, -, rfl⟩ := Trail.createNode_ok.mp ran
  obtain ⟨files, archived⟩ := tidy.archived
  obtain ⟨kinds, sound⟩ := tidy.sound
  have free := archived.grounded.newNode chosen
  obtain ⟨planted, shows, apart, notTop, alone⟩ := tidy.putNew free mutable borrows
  obtain ⟨kinds', after, -⟩ := Trail.createNode_sound sound (fun lists sound => fits kinds lists sound) ran
  exact ⟨free, rfl, ⟨⟨kinds', after⟩, closed_files.step ⟨files, archived⟩ (change chosen within), planted⟩, shows,
    apart, notTop, alone⟩

/-- A successor is put beside the node that it is to replace. -/
theorem Tidy.succeed (tidy : Tidy streams fs) {old : NodeId} {next : Filesystem} (found : fs.node old = some node)
    (committed : node.rev ≠ none)
    (ran : Trail.createSuccessor old (Trail.makeMutable node) fs = .ok (id, next)) :
    Added streams fs next id (Trail.makeMutable node) ∧
      ∀ {tree}, Shows fs.graph old tree → Shows next.graph id tree := by
  obtain ⟨chosen, within, -, rfl⟩ := Trail.createSuccessor_ok.mp ran
  obtain ⟨files, archived⟩ := tidy.archived
  obtain ⟨kinds, sound⟩ := tidy.sound
  have free := archived.grounded.fresh found chosen
  have borrows : Borrows fs (Trail.makeMutable node) := Or.inr ⟨old, node, found, committed, rfl, rfl⟩
  obtain ⟨planted, shows, apart, notTop, alone⟩ := tidy.putNew free rfl borrows
  have added : Added streams fs (fs.putNode id (Trail.makeMutable node)) id (Trail.makeMutable node) :=
    ⟨free, rfl, ⟨⟨kinds, Trail.putSuccessor_sound sound _ (Trail.SoundFor.shaped sound found) chosen within found
      (Trail.SoundFor.kind sound found).symm ⟨rfl, rfl, rfl, rfl⟩⟩,
      closed_files.step ⟨files, archived⟩ (.succeed found committed chosen within), planted⟩, shows, apart,
      notTop, alone⟩
  exact ⟨added, fun shown => Shows.copied (added.others found) added.placed rfl rfl rfl (shows shown)⟩

end Creation

section Tops

variable {fs next : Filesystem}

/-- Only this transaction is changed. If its root can be changed, nothing else holds it. -/
structure Retops (fs next : Filesystem) (txn : Nat) : Prop where
  nodes : next.nodes = fs.nodes
  store : next.store = fs.store
  revisions : ∀ root ∈ next.revisions, root ∈ fs.revisions ∨ ∃ node, fs.node root = some node ∧ node.rev ≠ none
  others : ∀ other, other ≠ txn → next.txns.lookup other = fs.txns.lookup other
  this : ∀ record, next.txns.lookup txn = some record → TxnPlanted fs record ∧
    (Loose fs.graph record.root → record.root ∉ fs.tops ∧ ∀ parent name, ¬ Edge fs.graph parent name record.root)

theorem graph_congr (nodes : next.nodes = fs.nodes) (store : next.store = fs.store) : next.graph = fs.graph := by
  funext id
  refine graph_same (by rw [Filesystem.node, Filesystem.node, nodes]) fun node _ _ => ?_
  rw [Filesystem.listed, Filesystem.listed, store]

theorem Planted.retop (planted : Planted fs) {txn : Nat} (retops : Retops fs next txn) : Planted next := by
  have same := graph_congr retops.nodes retops.store
  have node (id : NodeId) : next.node id = fs.node id := by rw [Filesystem.node, Filesystem.node, retops.nodes]
  have txnPlanted {record : Txn} (old : TxnPlanted fs record) : TxnPlanted next record := by
    obtain ⟨base, root⟩ := old
    rw [← node] at base
    rw [← same] at root
    exact ⟨base, root⟩
  have old {other : Nat} {record : Txn} (distinct : other ≠ txn) (stored : next.txns.lookup other = some record) :
      fs.txns.lookup other = some record := (retops.others other distinct).symm.trans stored
  refine ⟨?_, ?_, ?_, ?_, ?_, ?_⟩
  · intro id found stored isDir
    rw [node] at stored
    obtain ⟨entries, list, proper⟩ := planted.lists stored isDir
    refine ⟨entries, ?_, proper⟩
    rw [ListOf, retops.store]
    exact list
  · intro first second one two key isFirst isSecond distinct dir dir' named named'
    rw [node] at isFirst isSecond
    rw [retops.store]
    exact planted.owned isFirst isSecond distinct dir dir' named named'
  · rw [same]
    refine planted.forest.reroot ?_
    rintro root ⟨other, record, stored, rfl⟩
    by_cases this : other = txn
    · exact Or.inr fun loose => ((retops.this record (this ▸ stored)).2 loose).2
    · exact Or.inl ⟨other, record, old this stored, rfl⟩
  · intro other record stored
    by_cases this : other = txn
    · exact txnPlanted (retops.this record (this ▸ stored)).1
    · exact txnPlanted (planted.txns (old this stored))
  · intro first second one two isFirst isSecond loose roots
    rw [same] at loose
    by_cases this : first = txn
    · by_cases that : second = txn
      · exact this.trans that.symm
      · obtain ⟨free, -⟩ := (retops.this one (this ▸ isFirst)).2 loose
        exact absurd ⟨second, two, old that isSecond, roots.symm⟩ free
    · by_cases that : second = txn
      · obtain ⟨free, -⟩ := (retops.this two (that ▸ isSecond)).2 (roots ▸ loose)
        exact absurd ⟨first, one, old this isFirst, roots⟩ free
      · exact planted.apart (old this isFirst) (old that isSecond) loose roots
  · intro root member
    rw [node]
    rcases retops.revisions root member with earlier | committed
    · exact planted.revisions root earlier
    · exact committed

end Tops

end Subversion.Fs
