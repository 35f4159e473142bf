/-
This file shows that an edit of a node changes the tree of this node as it should.
-/

import Subversion.Fs.Edits
import Subversion.Fs.Stabilizations

namespace Subversion.Fs

open Delta SharedTrees Transactions

/-- A new file or directory. -/
def newLeaf (kind : NodeKind) : Tree Bytes Face := .node ⟨kind, none, none⟩ fun _ => none

section Entries

variable {streams : List Trail.Stream} {fs next : Filesystem} {id : NodeId} {depth : Nat} {name : Bytes}

/-- The other nodes do not lead to what was added. -/
theorem Added.reach {node : NodeRev} (added : Added streams fs next id node) (planted : Planted fs)
    {top last : NodeId} (there : ∃ vertex, fs.graph top = some vertex) (reach : Reach next.graph top last) :
    Reach fs.graph top last ∧ ∃ vertex, fs.graph last = some vertex := by
  induction reach with
  | refl => exact ⟨.refl, there⟩
  | tail _ step ih =>
      obtain ⟨before, present⟩ := ih
      obtain ⟨other, edge⟩ := step
      obtain ⟨found, stored⟩ := exists_vertex.mp present
      obtain ⟨again, stored', isChild⟩ := edge_iff.mp edge
      rw [added.others stored] at stored'
      cases stored'
      rw [added.same] at isChild
      have edge' : Edge fs.graph _ other _ := edge_iff.mpr ⟨found, stored, isChild⟩
      exact ⟨before.tail ⟨other, edge'⟩, planted.forest.closed edge'⟩

/-- A node that was added is entered in a directory. -/
theorem Added.alters (planted : Planted fs) {middle : Filesystem} {node : NodeRev}
    (added : Added streams fs middle id node)
    {parent : NodeId} {above : NodeRev} {branch : Tree Bytes Face} (shown : Shows middle.graph id branch)
    (entered : Entered streams middle next parent above name id) :
    Alters streams fs next parent (Tree.graft name (some branch)) := by
  have modifies := entered.modifies shown
  refine ⟨entered.tidy, fun way shows => modifies.along (added.way way) (added.shows shows),
    fun {other tree} shows apart _ => modifies.apart (added.shows shows) fun reach => apart ?_, ?_, ?_⟩
  · refine (added.reach planted ?_ reach).1
    cases shows with
    | node found _ _ => exact ⟨_, found⟩
  · rw [entered.elsewhere.txns, added.same]
    rfl
  · rw [entered.elsewhere.revisions, added.same]
    rfl

/-- An entry of a name that was not there. -/
theorem Tidy.makeEntry (tidy : Tidy streams fs) {parent : NodeId} {kind : NodeKind}
    (ran : Trail.makeEntry depth parent name kind fs = .ok (id, next)) :
    Alters streams fs next parent (Tree.graft name (some (newLeaf kind))) ∧ Loose fs.graph parent ∧
      ∀ child, ¬ Edge fs.graph parent name child := by
  simp only [Trail.makeEntry, bind_ok, Trail.getNodeRevision_ok, ensure_ok, pure_ok] at ran
  obtain ⟨-, _, ⟨single, rfl⟩, node, _, ⟨found, rfl⟩, -, _, ⟨isDir, rfl⟩, -, _, ⟨mutable, rfl⟩, entries, _, read,
    -, fs, ⟨missing, rfl⟩, clone, middle, created, _, last, ranSet, rfl, rfl⟩ := ran
  obtain ⟨rfl, other, again, -, list⟩ := dirEntriesSkel_list tidy.planted read
  rw [found] at again
  cases again
  have loose : Loose fs.graph parent := (loose_node found).mpr mutable
  have added := tidy.create created rfl (Or.inl rfl) (fun _ _ _ => ⟨by simp, by simp, by simp⟩)
    fun chosen within => .create kind chosen within
  have entered := added.tidy.setEntryUnchecked (added.others found) isDir mutable single (added.attachable loose) ranSet
  have shown : Shows middle.graph id (newLeaf kind) := by
    have vertex : middle.vertex ⟨kind, none, none, none, none, none⟩ = ⟨⟨kind, none, none⟩, false, fun _ => none⟩ := by
      rw [Filesystem.vertex, listed_empty rfl, NodeRev.face]
      simp only [ite_self]
      rfl
    refine .node ((graph_of_node added.placed).trans (congrArg some vertex)) (fun _ => rfl) fun _ _ _ impossible => ?_
    cases impossible
  refine ⟨added.alters tidy.planted shown entered, loose, fun child edge => ?_⟩
  obtain ⟨other, stored, isChild⟩ := edge_iff.mp edge
  rw [found] at stored
  cases stored
  rw [list.listed isDir, childOf, missing] at isChild
  cases isChild

theorem setEntry_ok {parent child : NodeId} {value : Unit}
    (ran : Trail.setEntry depth parent name child fs = .ok (value, next)) :
    ∃ node, fs.node parent = some node ∧ node.kind = .dir ∧ node.rev = none ∧
      Trail.setEntryUnchecked depth parent name child fs = .ok (value, next) := by
  simp only [Trail.setEntry, bind_ok, Trail.getNodeRevision_ok, ensure_ok] at ran
  obtain ⟨node, _, ⟨found, rfl⟩, -, _, ⟨isDir, rfl⟩, -, fs, ⟨mutable, rfl⟩, ran⟩ := ran
  exact ⟨node, found, isDir, mutable, ran⟩

/-- A committed tree gets one more place, whatever was there. -/
theorem Tidy.copy (tidy : Tidy streams fs) {toNode fromNode : NodeId} {preserveHistory : Bool} {fromRev : Nat}
    {fromPath : Bytes} {value : Unit} (single : isSinglePathComponent name = true) (loose : Loose fs.graph toNode)
    (there : ∃ node, fs.node fromNode = some node ∧ node.rev ≠ none) {branch : Tree Bytes Face}
    (shown : Shows fs.graph fromNode branch)
    (ran : Trail.copy depth toNode name fromNode preserveHistory fromRev fromPath fs = .ok (value, next)) :
    Alters streams fs next toNode (Tree.graft name (some branch)) := by
  obtain ⟨node, isFrom, committed⟩ := there
  rw [Trail.copy] at ran
  split at ran
  · simp only [bind_ok, Trail.getNodeRevision_ok] at ran
    obtain ⟨again, fs, ⟨found, rfl⟩, clone, middle, created, ran⟩ := ran
    rw [isFrom] at found
    cases found
    obtain ⟨above, stored, isDir, mutable, ranSet⟩ := setEntry_ok ran
    have added := tidy.create created rfl (Or.inr ⟨fromNode, node, isFrom, committed, rfl, rfl⟩)
      (fun kinds lists sound => by
        obtain ⟨prop, edit, data⟩ := sound.fits isFrom
        exact ⟨prop, edit, data⟩)
      fun chosen within => .copy (fromRev, fromPath) isFrom chosen within
    have entered := added.tidy.setEntryUnchecked stored isDir mutable single (added.attachable loose) ranSet
    exact added.alters tidy.planted (Shows.copied (added.others isFrom) added.placed rfl rfl rfl
      (added.shows shown)) entered
  · obtain ⟨above, stored, isDir, mutable, ranSet⟩ := setEntry_ok ran
    have attachable := tidy.planted.forest.attachable ⟨_, graph_of_node isFrom⟩ (not_loose isFrom committed) loose
    have entered := tidy.setEntryUnchecked stored isDir mutable single attachable ranSet
    have modifies := entered.modifies shown
    exact ⟨entered.tidy, modifies.along, fun shows apart _ => modifies.apart shows apart, entered.elsewhere.txns,
      entered.elsewhere.revisions⟩

end Entries

section Faces

variable {streams : List Trail.Stream} {fs next : Filesystem} {id : NodeId} {node new : NodeRev} {depth : Nat}

/-- A node that can be changed gets another face. -/
theorem Tidy.reface (tidy : Tidy streams fs) (sound : Trail.SoundIn streams next)
    (archived : ∃ files, Archived files next) (light : Light fs next) (found : fs.node id = some node)
    (mutable : node.rev = none) (placed : next.node id = some new) (still : new.rev = none)
    (others : ∀ other, other ≠ id → next.node other = fs.node other) :
    Alters streams fs next id (Tree.relabel fun _ => new.face) := by
  obtain ⟨planted, graph⟩ := tidy.planted.reface light found placed (still.trans mutable.symm) others
  have flag : (fs.vertex node).frozen = false := by
    rw [Filesystem.vertex, mutable]
    rfl
  have modifies := tidy.planted.forest.relabel (graph_of_node found) flag new.face
  rw [← graph] at modifies
  exact ⟨⟨sound, archived, planted⟩, modifies.along, fun shows apart _ => modifies.apart shows apart, light.txns,
    light.revisions⟩

/-- Changes that do the same to the tree of the node. -/
theorem Alters.congr {change change' : Tree Bytes Face → Tree Bytes Face}
    (alters : Alters streams fs next id change)
    (same : ∀ inner, Shows fs.graph id inner → change inner = change' inner) :
    Alters streams fs next id change' := by
  refine ⟨alters.tidy, fun way shows => ?_, alters.apart, alters.txns, alters.revisions⟩
  obtain ⟨inner, follows, inside⟩ := way.follow shows
  rw [← Tree.modify_congr _ follows (same inner inside)]
  exact alters.along way shows

theorem relabel_face (found : fs.node id = some node) {change : Face → Face} {inner : Tree Bytes Face}
    (shows : Shows fs.graph id inner) :
    (inner.relabel fun _ => change node.face) = inner.relabel change := by
  cases shows with
  | node present _ _ =>
      rw [graph_of_node found] at present
      cases present
      rfl

/-- A rep that is no list is written anew. -/
theorem light_rewrite {lists : Set Nat} {kinds : Nat → NodeKind} (sound : Sound lists kinds streams fs) {key : Nat}
    (plain : Plain lists fs.store.nextRep key) {bytes : Bytes} {value : Unit}
    (ran : (do
      changeStore fun store => repContentsClear store key
      changeStore fun store => repWrite store key bytes : Trail Unit) fs = .ok (value, next)) :
    Light fs next ∧ ∀ other, next.node other = fs.node other := by
  simp only [bind_ok, changeStore_ok] at ran
  obtain ⟨-, _, ⟨first, cleared, rfl⟩, second, wrote, rfl⟩ := ran
  have unlisted (key' : Nat) (member : key' ∈ lists) : key' ≠ key := by
    rintro rfl
    exact plain.2 member
  have clears : Light fs (fs.setStore first) := Light.op sound
    (show runRepOp fs.store 0 (.clear key) = .ok first from cleared) unlisted
  have writes : Light (fs.setStore first) ((fs.setStore first).setStore second) :=
    Light.op (sound.repContentsClear plain.2 cleared)
      (show runRepOp first 0 (.write key bytes) = .ok second from wrote) unlisted
  exact ⟨clears.trans writes, fun _ => rfl⟩

/-- The list of properties is kept in another rep, or in the old one. -/
theorem Tidy.setProplist (tidy : Tidy streams fs) {proplist : Skel} {value : Unit}
    (ran : Trail.setProplist depth id proplist fs = .ok (value, next)) :
    ∃ key, Alters streams fs next id (Tree.relabel fun face => { face with propKey := some key }) := by
  have archived := Trail.changes_setProplist closed_files depth id proplist _ tidy.archived _ _ ran
  obtain ⟨kinds, lists, sound⟩ := tidy.sound
  have after := Trail.keeps_setProplist depth id proplist _ ⟨lists, sound⟩ _ _ ran
  simp only [Trail.setProplist, bind_ok, Trail.getNodeRevision_ok, ensure_ok, withStore_ok] at ran
  obtain ⟨node, _, ⟨found, rfl⟩, -, _, ⟨mutable, rfl⟩, -, fs, ⟨-, rfl⟩, key, _, ⟨store, got, rfl⟩, ran⟩ := ran
  obtain ⟨middle, plain⟩ := sound.getMutableRep (sound.fits found).prop got
  have first : Light fs (fs.setStore store) :=
    Light.op sound (show runRepOp fs.store depth (.getMutable node.propKey) = .ok store by rw [runRepOp, got]; rfl)
      fun _ _ => trivial
  obtain ⟨light, placed, others⟩ : Light fs next ∧ next.node id = some { node with propKey := some key } ∧
      ∀ other, other ≠ id → next.node other = fs.node other := by
    split at ran
    · next same =>
        obtain ⟨second, nodes⟩ := light_rewrite middle plain ran
        exact ⟨first.trans second, by rw [nodes, ← same]; exact found, fun other _ => nodes other⟩
    · rw [bind_ok] at ran
      obtain ⟨_, _, changed, ran⟩ := ran
      obtain ⟨-, rfl⟩ := Trail.putNodeRevision_ok.mp changed
      have fits := middle.fits found
      have keyed := middle.changeNode { node with propKey := some key } found rfl
        ⟨by rintro _ ⟨⟩; exact plain, fits.edit, fits.data⟩
      have second : Light (fs.setStore store) ((fs.setStore store).putNode id { node with propKey := some key }) :=
        Light.putNode (show (fs.setStore store).node id = some node from found) _ rfl fun _ => rfl
      obtain ⟨third, nodes⟩ := light_rewrite keyed plain ran
      refine ⟨(first.trans second).trans third, ?_, fun other distinct => ?_⟩
      · rw [nodes, Filesystem.node_putNode, if_pos rfl]
      · rw [nodes, Filesystem.node_putNode, if_neg distinct]
        rfl
  refine ⟨key, (tidy.reface ⟨kinds, after⟩ archived light found mutable placed mutable others).congr fun inner shows => ?_⟩
  exact @relabel_face fs id node found (fun face => { face with propKey := some key }) inner shows

/-- The stream has its own rep, so nothing is seen of it yet. -/
theorem Tidy.getEditStream (tidy : Tidy streams fs) {key : Nat}
    (ran : Trail.getEditStream depth id fs = .ok (key, next)) : Tidy (⟨id, key⟩ :: streams) next ∧
      next.graph = fs.graph ∧ next.txns = fs.txns ∧ next.revisions = fs.revisions := by
  have archived := Trail.changes_getEditStream closed_files depth id _ tidy.archived _ _ ran
  obtain ⟨kinds, lists, sound⟩ := tidy.sound
  have after := Trail.getEditStream_sound depth id _ ⟨lists, sound⟩ _ _ ran
  obtain ⟨node, store, found, isFile, mutable, -, got, rfl⟩ := Trail.getEditStream_ok.mp ran
  have first : Light fs (fs.setStore store) :=
    Light.op sound (show runRepOp fs.store depth (.getMutable none) = .ok store by rw [runRepOp, got]; rfl)
      fun _ _ => trivial
  have second : Light (fs.setStore store) ((fs.setStore store).putNode id { node with editKey := some key }) :=
    Light.putNode (show (fs.setStore store).node id = some node from found) _ rfl fun _ => rfl
  have placed : ((fs.setStore store).putNode id { node with editKey := some key }).node id =
      some { node with editKey := some key } := by rw [Filesystem.node_putNode, if_pos rfl]
  obtain ⟨planted, graph⟩ := tidy.planted.reface (first.trans second) found placed rfl fun other distinct => by
    rw [Filesystem.node_putNode, if_neg distinct]
    rfl
  have same : fs.vertex node = { fs.vertex node with label := ({ node with editKey := some key } : NodeRev).face } := rfl
  rw [← same, ← graph_of_node found, Function.update_eq_self] at graph
  exact ⟨⟨⟨kinds, after⟩, archived, planted⟩, graph, rfl, rfl⟩

/-- The text that was written becomes the text of the file. -/
theorem Tidy.finalizeEdits (tidy : Tidy streams fs) {value : Unit}
    (ran : Trail.finalizeEdits id fs = .ok (value, next)) :
    (Loose fs.graph id ∧
      ∃ key, Alters streams fs next id (Tree.relabel fun face => { face with textKey := some key })) ∨ next = fs := by
  have archived := Trail.changes_finalizeEdits closed_files id _ tidy.archived _ _ ran
  obtain ⟨kinds, lists, sound⟩ := tidy.sound
  have after := Trail.keeps_finalizeEdits id _ ⟨lists, sound⟩ _ _ ran
  simp only [Trail.finalizeEdits, bind_ok, Trail.getNodeRevision_ok, ensure_ok] at ran
  obtain ⟨node, _, ⟨found, rfl⟩, -, fs, ⟨mutable, rfl⟩, ran⟩ := ran
  cases edited : node.editKey with
  | none =>
      rw [edited] at ran
      obtain ⟨-, rfl⟩ := pure_ok.mp ran
      exact Or.inr rfl
  | some key =>
      rw [edited] at ran
      simp only [bind_ok, Trail.putNodeRevision_ok] at ran
      obtain ⟨-, _, ⟨-, rfl⟩, ran⟩ := ran
      have fits := sound.fits found
      obtain ⟨isFile, plain⟩ := fits.edit key edited
      have isNotDir : node.kind ≠ .dir := by
        rw [isFile]
        exact NodeKind.noConfusion
      have first : Light fs (fs.putNode id { node with dataKey := some key, editKey := none }) :=
        Light.putNode found _ rfl fun isDir => absurd isDir isNotDir
      have changed := sound.changeNode { node with dataKey := some key, editKey := none } found rfl
        ⟨fits.prop, by simp, by rintro _ ⟨⟩; exact ⟨plain.1, iff_of_false plain.2 isNotDir⟩⟩
      obtain ⟨light, nodes⟩ : Light (fs.putNode id { node with dataKey := some key, editKey := none }) next ∧
          next.nodes = (fs.putNode id { node with dataKey := some key, editKey := none }).nodes := by
        cases named : node.dataKey with
        | none =>
            rw [named] at ran
            obtain ⟨-, rfl⟩ := pure_ok.mp ran
            exact ⟨Light.refl _, rfl⟩
        | some old =>
            rw [named] at ran
            obtain ⟨store, deleted, rfl⟩ := changeStore_ok.mp ran
            have unlisted : old ∉ lists := fun member => isNotDir ((fits.data old named).2.mp member)
            refine ⟨Light.op changed (show runRepOp fs.store 0 (.deleteIfMutable old) = .ok store from deleted)
              fun other member => Or.inl ?_, rfl⟩
            rintro rfl
            exact unlisted member
      have placed (other : NodeId) : next.node other =
          if other = id then some { node with dataKey := some key, editKey := none } else fs.node other := by
        rw [Filesystem.node, nodes, ← Filesystem.node, Filesystem.node_putNode]
      have isFace : ({ node with dataKey := some key, editKey := none } : NodeRev).face =
          { node.face with textKey := some key } := by
        rw [NodeRev.face, NodeRev.face, if_neg isNotDir]
      have alters := tidy.reface ⟨kinds, after⟩ archived (first.trans light) found mutable
        ((placed id).trans (if_pos rfl)) mutable fun other distinct => (placed other).trans (if_neg distinct)
      rw [isFace] at alters
      exact Or.inl ⟨(loose_node found).mpr mutable, key, alters.congr fun inner shows =>
        @relabel_face fs id node found (fun face => { face with textKey := some key }) inner shows⟩

end Faces

end Subversion.Fs
