/-
This file shows that the delta between the same path of two roots updates exactly what is asked for.
-/

import Subversion.Repos.DeltaCorrect

namespace Subversion.Repos

open Delta Fs Subr Lib

variable {c : Context}

section Driver

theorem nodeId_eq {side : Side} {path : Bytes} {node : Node} (opened : c.opened side path = .ok node) :
    nodeId c side path = .ok node.id := by
  rw [nodeId, opened]
  rfl

theorem nodeId_error {side : Side} {path : Bytes} {error : SvnError}
    (failed : c.opened side path = .error error) : nodeId c side path = .error error := by
  rw [nodeId, failed]
  rfl

theorem code_notFound {root : Root} (named : root ≠ .id) (path : Bytes) :
    (Trail.notFound root path).code = .fsNotFound := by
  cases root with
  | revision rev => rfl
  | txn txn => rfl
  | id => exact absurd rfl named

/-- What is done in the root directory is done to the anchor. -/
theorem replay_driver {steps : List Step} {next : Baton} {props props' : Bytes → Option Bytes}
    {entries entries' : Bytes → Option Tree}
    (turns : Turns steps 1 next ⟨0, [], props, entries⟩ ⟨0, [], props', entries'⟩) (c : Context)
    (revision : Int64) :
    replay (.dir props entries) (targetRevision c ++ .call (.openRoot revision 0) ::
      (steps ++ [.call (.closeDirectory 0), .call .closeEdit])) = some (.dir props' entries') := by
  have named : ∀ session : Session, session.run (.dir props entries) (targetRevision c) = some session := by
    intro session
    rw [targetRevision]
    split <;> rfl
  have opened : Session.run (.dir props entries) ⟨[], none, 0, none⟩
      (.call (.openRoot revision 0) :: (steps ++ [.call (.closeDirectory 0), .call .closeEdit])) =
        some ⟨[], none, next, some (.dir props' entries')⟩ := by
    have root : Session.step (.dir props entries) ⟨[], none, 0, none⟩ (.call (.openRoot revision 0)) =
        some ⟨[⟨0, [], props, entries⟩], none, 1, none⟩ := rfl
    rw [Session.run_cons, root, Option.bind_some]
    apply Session.run_trans (turns _ [])
    simp [Session.run_cons, Session.run_nil, Session.step, Session.accept, Session.inside, OpenDir.tree]
  rw [replay, Session.run_trans (named _) opened]
  rfl

theorem dirDelta_eq {fuel : Nat} {srcParentDir tgtPath : Bytes} {srcEntry : Option Bytes} {steps : List Step}
    (checked : checkParents c srcParentDir (splitTarget srcEntry tgtPath).1 = .ok ())
    (made : deltaItem fuel c srcParentDir srcEntry tgtPath = .ok steps) :
    dirDelta fuel c (some srcParentDir) srcEntry (some tgtPath) = .ok (targetRevision c ++
      .call (.openRoot (getRevisionFromHash c.sourceRevDiffs srcParentDir) 0) ::
      (steps ++ [.call (.closeDirectory 0), .call .closeEdit])) := by
  simp only [dirDelta, checked, made, bind, Except.bind]
  rfl

end Driver

section Parents

theorem opened_of_components {side : Side} {path other : Bytes} {node : Node}
    (opened : c.opened side path = .ok node) (isDir : node.isDir = true)
    (same : components other = components path) : c.opened side other = .ok node := by
  apply openPath_of_follow isDir
  rw [same]
  exact follow_components opened

theorem checkParent_ok {role : String} {source target named : Bytes} {s t : Node}
    (sourceOpened : c.opened .source source = .ok s) (sourceIsDir : s.isDir = true)
    (targetOpened : c.opened .target target = .ok t) (targetIsDir : t.isDir = true) :
    checkParent c role source target named = .ok () := by
  simp only [checkParent, isDir_eq sourceOpened, isDir_eq targetOpened, sourceIsDir, targetIsDir, bind,
    Except.bind]
  rfl

theorem checkParent_error (role : String) (source named : Bytes) {target : Bytes}
    (notDir : ∀ t, c.opened .target target = .ok t → t.isDir = false) :
    ∃ error, checkParent c role source target named = .error error := by
  rw [checkParent]
  cases inSource : isDir c .source source with
  | error error => exact ⟨error, rfl⟩
  | ok sourceIsDir =>
      cases inTarget : c.opened .target target with
      | error error =>
          refine ⟨error, ?_⟩
          simp only [isDir, inTarget, bind, Except.bind]
      | ok t =>
          refine ⟨notADirError role (bytesText named), ?_⟩
          simp only [isDir_eq inTarget, notDir t inTarget, bind, Except.bind, Bool.and_false,
            Bool.false_eq_true, if_false]

/-- A parent that is a directory under both roots, however the path of the target is spelled. -/
theorem checkParents_ok {parent other : Bytes} {s t : Node} (sourceOpened : c.opened .source parent = .ok s)
    (sourceIsDir : s.isDir = true) (targetOpened : c.opened .target parent = .ok t)
    (targetIsDir : t.isDir = true) (same : components other = components parent) :
    checkParents c parent other = .ok () := by
  have otherInSource := opened_of_components sourceOpened sourceIsDir same
  have otherInTarget := opened_of_components targetOpened targetIsDir same
  rw [checkParents, checkParent_ok sourceOpened sourceIsDir otherInTarget targetIsDir,
    checkParent_ok otherInSource sourceIsDir otherInTarget targetIsDir]
  split <;> split <;> rfl

theorem addComponent_ends (path : Bytes) {name : Bytes} (valid : IsComponent name) :
    ∃ before, addComponent path name = before ++ name := by
  rw [addComponent_eq path valid]
  split
  · exact ⟨path, rfl⟩
  · exact ⟨path ++ [separator], (List.append_assoc path [separator] name).symm⟩

/-- A path that ends in a component is empty only if it is a dot. -/
theorem not_isEmptyPath_addComponent (path : Bytes) {name : Bytes} (valid : IsComponent name)
    (notDot : name ≠ [46]) : isEmptyPath (addComponent path name) = false := by
  obtain ⟨before, ends⟩ := addComponent_ends path valid
  rw [Bool.eq_false_iff]
  intro empty
  simp only [isEmptyPath, ends, Bool.or_eq_true, decide_eq_true_eq] at empty
  rcases empty with (none | dot) | dotSlash
  · exact valid.1 (List.append_eq_nil_iff.mp none).2
  · rcases List.append_eq_singleton_iff.mp dot with ⟨-, same⟩ | ⟨-, same⟩
    · exact notDot same
    · exact valid.1 same
  · obtain ⟨start, byte, rfl, other⟩ := valid.isRoot
    have split : (before ++ start) ++ [byte] = [46] ++ [separator] := by
      rw [List.append_assoc]
      exact dotSlash
    exact other (List.singleton_inj.mp (List.append_inj' split rfl).2)

theorem eq_nil_of_isEmptyPath {path name : Bytes} (valid : IsComponent name)
    (empty : isEmptyPath (addComponent path name) = true) : path = [] := by
  have long : 0 < name.length := List.length_pos_iff.mpr valid.1
  have short : ∀ text : Bytes, isEmptyPath text = true → text.length ≤ 2 := by
    intro text isEmpty
    simp only [isEmptyPath, Bool.or_eq_true, decide_eq_true_eq] at isEmpty
    rcases isEmpty with (rfl | rfl) | rfl <;> simp
  rw [addComponent_eq path valid] at empty
  split at empty
  · next atTop =>
      rcases atTop with isNil | rfl
      · exact isNil
      · simp [isEmptyPath, separator] at empty
  · next inside =>
      exfalso
      have few := short _ empty
      rw [not_or] at inside
      have some := List.length_pos_iff.mpr inside.1
      rw [List.length_append, List.length_cons] at few
      omega

/-- The path is split where it was put together. -/
theorem splitTarget_addComponent {path name : Bytes} (valid : IsComponent name)
    (notEmpty : isEmptyPath (addComponent path name) = false) :
    ∃ parent, components parent = components path ∧
      splitTarget (some name) (addComponent path name) = (parent, some name) := by
  have isRoot : IsRoot (addComponent path name) := by
    obtain ⟨before, ends⟩ := addComponent_ends path valid
    rw [ends]
    exact valid.isRoot.append
  have canonical : canonicalize (addComponent path name) ≠ [] := by
    rw [canonicalize_of_isRoot isRoot]
    obtain ⟨before, byte, shape, -⟩ := isRoot
    rw [shape]
    simp
  have parts := (splitPath_components canonical).2
  rw [components_addComponent path valid] at parts
  obtain ⟨parents, last⟩ := List.append_inj' parts rfl
  refine ⟨(splitPath (addComponent path name)).1, parents.symm, ?_⟩
  rw [splitTarget, if_neg (by simp [notEmpty]), ← List.singleton_inj.mp last]

/-- The parent of the target is that of the source. -/
theorem splitTarget_parent (path : Bytes) {entry : Option Bytes} (valid : ∀ name ∈ entry, IsComponent name) :
    components (splitTarget entry (srcFullpath path entry)).1 = components path ∨
      path = [] ∧ isEmptyPath (splitTarget entry (srcFullpath path entry)).1 = true := by
  cases entry with
  | none => exact .inl rfl
  | some name =>
      have isName := valid name rfl
      rw [srcFullpath, if_neg isName.1]
      cases empty : isEmptyPath (addComponent path name) with
      | false =>
          obtain ⟨parent, same, split⟩ := splitTarget_addComponent isName empty
          rw [split]
          exact .inl same
      | true =>
          refine .inr ⟨eq_nil_of_isEmptyPath isName empty, ?_⟩
          rw [splitTarget, if_pos (.inr empty)]
          exact empty

end Parents

section Update

variable (sound : c.Sound) (texts : c.textDeltas = true) (recurse : c.recurse = true) {fuel : Nat}
  (enough : c.target.node.height ≤ fuel)

include sound texts recurse enough in
/-- The entry becomes the one of the target and nothing else changes. -/
theorem deltaItem_entry {parent name : Bytes} (valid : IsComponent name) {s t : Node}
    (sourceOpened : c.opened .source parent = .ok s) (sourceIsDir : s.isDir = true)
    (targetOpened : c.opened .target parent = .ok t) (targetIsDir : t.isDir = true) :
    ∃ steps next, deltaItem fuel c parent (some name) (addComponent parent name) = .ok steps ∧
      ∀ dir : OpenDir, dir.baton = 0 → dir.entries name = s.look c.store name →
        Turns steps 1 next dir (dir.set name (t.look c.store name)) := by
  have fullpath : srcFullpath parent (some name) = addComponent parent name := if_neg valid.1
  have inTarget := openPath_addComponent targetOpened targetIsDir valid
  have inSource := openPath_addComponent sourceOpened sourceIsDir valid
  cases found : t.child name with
  | none =>
      rw [found] at inTarget
      refine ⟨[.access .target (addComponent parent name), delete 0 name], 1, ?_, ?_⟩
      · simp only [deltaItem, nodeId_error inTarget, code_notFound (sound.rootName .target), if_true, withEntry]
      · intro dir top _
        apply Turns.cons_access
        rw [Node.look, found]
        exact turns_delete top name 1
  | some child =>
      rw [found] at inTarget
      have single : isSinglePathComponent name = true := by
        apply sound.names .target _ t (follow_components targetOpened) name
        by_contra absent
        rw [Node.child, lookup_eq_none_iff.mpr absent] at found
        cases found
      have notDot : name ≠ [46] := by
        rintro rfl
        cases single
      obtain ⟨other, sameParent, split⟩ := splitTarget_addComponent valid
        (not_isEmptyPath_addComponent parent valid notDot)
      have otherInSource := opened_of_components sourceOpened sourceIsDir sameParent
      have otherInTarget := opened_of_components targetOpened targetIsDir sameParent
      have childInTarget := c.opened_child sound otherInTarget found
      have small : child.height ≤ fuel :=
        (Node.height_follow _ (follow_components inTarget)).trans enough
      have spec := deltaDirs_spec sound texts recurse fuel
      obtain ⟨added, next, made, adds, -⟩ := addFileOrDir_spec spec texts childInTarget small 0 1
      have look : some (contents c.store child) = t.look c.store name := by
        rw [Node.look, found]
        rfl
      rw [look] at adds
      cases present : s.child name with
      | none =>
          rw [present] at inSource
          refine ⟨.access .target (addComponent parent name) :: .access .source (addComponent parent name) ::
            added, next, ?_, ?_⟩
          · simp only [deltaItem, split, fullpath, nodeId_eq inTarget, nodeId_error inSource,
              code_notFound (sound.rootName .source), if_true, withEntry, made]
            rfl
          · intro dir top same
            rw [Node.look, present] at same
            exact adds dir top same
      | some old =>
          rw [present] at inSource
          have looks : s.look c.store name = some (contents c.store old) := by
            rw [Node.look, present]
            rfl
          have sourceWay := follow_components inSource
          have targetWay := follow_components inTarget
          obtain ⟨first, more, rfl⟩ := List.exists_cons_of_ne_nil valid.1
          cases distance : idDistance old.id child.id with
          | none =>
              refine ⟨.access .target (addComponent parent (first :: more)) ::
                .access .source (addComponent parent (first :: more)) ::
                delete 0 (first :: more) :: added, next, ?_, ?_⟩
              · simp only [deltaItem, split, fullpath, nodeId_eq inTarget, nodeId_eq inSource, distance,
                  withEntry, made]
                rfl
              · intro dir top _
                have again := (turns_delete top (first :: more) 1).trans
                  (adds (dir.set (first :: more) none) top (Function.update_self _ _ _))
                rw [OpenDir.set_set] at again
                exact again
          | some far =>
              cases far with
              | zero =>
                  have sameId := eq_of_idDistance (sound.properId .source _ old sourceWay)
                    (sound.properId .target _ child targetWay) distance
                  have sameNode := sound.sameNode _ _ old child sourceWay targetWay sameId
                  refine ⟨[.access .target (addComponent parent (first :: more)),
                    .access .source (addComponent parent (first :: more))], 1, ?_, ?_⟩
                  · simp only [deltaItem, fullpath, nodeId_eq inTarget, nodeId_eq inSource, distance]
                  · intro dir top same
                    rw [OpenDir.set_self (by rw [same, looks, sameNode, look])]
                    exact Turns.refl 1 dir
              | succ far =>
                  have kinds := sound.sameKind _ _ old child sourceWay targetWay (by simp [distance])
                  obtain ⟨changed, next', replaced, changes⟩ := replaceFileOrDir_spec spec texts
                    (Start.paired (c.opened_child sound otherInSource present) childInTarget
                      inSource inTarget) kinds small 0 1
                  refine ⟨.access .target (addComponent parent (first :: more)) ::
                    .access .source (addComponent parent (first :: more)) :: changed, next', ?_, ?_⟩
                  · simp only [deltaItem, split, fullpath, nodeId_eq inTarget, nodeId_eq inSource, distance,
                      withEntry, replaced]
                    rfl
                  · intro dir top same
                    rw [← look]
                    exact changes dir top (same.trans looks)

/-- The anchor becomes that of the target, or only one entry of it does, whatever else is there. -/
def Updates (store : Store) (s t : Node) : Option Bytes → List Step → Prop
  | none, steps => replay (contents store s) steps = some (contents store t)
  | some name, steps => ∀ props entries, entries name = s.look store name →
      replay (.dir props entries) steps = some (.dir props (Function.update entries name (t.look store name)))

theorem Updates.nestedOnce {store : Store} {s t : Node} {entry : Option Bytes} {steps : List Step}
    (updates : Updates store s t entry steps) : NestedOnce steps := by
  cases entry with
  | none => exact nestedOnce_of_replay updates
  | some name => exact nestedOnce_of_replay (updates (fun _ => none) (s.look store) rfl)

include sound texts recurse enough in
theorem dirDelta_both_dirs {parent : Bytes} {entry : Option Bytes}
    (valid : ∀ name ∈ entry, IsComponent name) {s t : Node}
    (sourceOpened : c.opened .source parent = .ok s) (sourceIsDir : s.isDir = true)
    (targetOpened : c.opened .target parent = .ok t) (targetIsDir : t.isDir = true) :
    ∃ steps, dirDelta fuel c (some parent) entry (some (srcFullpath parent entry)) = .ok steps ∧
      Updates c.store s t entry steps := by
  have checked : checkParents c parent (splitTarget entry (srcFullpath parent entry)).1 = .ok () := by
    rcases splitTarget_parent parent valid with same | ⟨rfl, empty⟩
    · exact checkParents_ok sourceOpened sourceIsDir targetOpened targetIsDir same
    · rw [checkParents, empty]
      rfl
  cases entry with
  | none =>
      have spec := deltaDirs_spec sound texts recurse fuel 0 (some parent) parent (some s) t 1
        (.paired sourceOpened targetOpened sourceOpened targetOpened) targetIsDir
        (fun node same => by
          cases same
          exact sourceIsDir)
        ((Node.height_follow _ (follow_components targetOpened)).trans enough)
      obtain ⟨steps, next, made, turns, -⟩ := spec
      have item : deltaItem fuel c parent none parent =
          .ok (.access .target parent :: .access .source parent :: steps) := by
        simp only [deltaItem, srcFullpath, nodeId_eq targetOpened, nodeId_eq sourceOpened, made]
        rfl
      refine ⟨_, dirDelta_eq checked item, ?_⟩
      rw [Updates, contents_dir c.store sourceIsDir, contents_dir c.store targetIsDir]
      exact replay_driver (((turns []).cons_access _ _).cons_access _ _) c _
  | some name =>
      have isName := valid name rfl
      obtain ⟨steps, next, made, turns⟩ := deltaItem_entry sound texts recurse enough isName sourceOpened
        sourceIsDir targetOpened targetIsDir
      have fullpath : srcFullpath parent (some name) = addComponent parent name := if_neg isName.1
      rw [fullpath] at checked ⊢
      refine ⟨_, dirDelta_eq checked made, ?_⟩
      intro props entries same
      exact replay_driver (turns ⟨0, [], props, entries⟩ rfl same) c _

include sound in
/-- Neither the root nor a dot is a directory of the source only. -/
theorem not_isEmptyPath_of_opened {parent : Bytes} {s : Node}
    (sourceOpened : c.opened .source parent = .ok s)
    (notDir : ∀ t, c.opened .target parent = .ok t → t.isDir = false) : isEmptyPath parent = false := by
  have noDot : ∀ node, c.source.node.follow [[46]] ≠ some node := by
    intro node way
    rw [Node.follow] at way
    obtain ⟨child, found, -⟩ := Option.bind_eq_some_iff.mp way
    have single : isSinglePathComponent [46] = true := by
      apply sound.names .source [] c.source.node rfl [46]
      by_contra absent
      rw [Node.child, lookup_eq_none_iff.mpr absent] at found
      cases found
    cases single
  have way := follow_components sourceOpened
  rw [Bool.eq_false_iff]
  intro empty
  simp only [isEmptyPath, Bool.or_eq_true, decide_eq_true_eq] at empty
  rcases empty with (rfl | rfl) | rfl
  · have root := notDir (c.root .target).node rfl
    rw [sound.rootIsDir .target] at root
    cases root
  · exact noDot s way
  · exact noDot s way

include sound texts recurse enough in
/-- An update of a directory, or of one entry of it, makes it what it is in the target, and nothing
else is touched. It fails if the directory is not one in the target. -/
theorem dirDelta_updates {parent : Bytes} {entry : Option Bytes}
    (valid : ∀ name ∈ entry, IsComponent name) {s : Node}
    (sourceOpened : c.opened .source parent = .ok s) (sourceIsDir : s.isDir = true) :
    (∀ t, c.opened .target parent = .ok t → t.isDir = true →
      ∃ steps, dirDelta fuel c (some parent) entry (some (srcFullpath parent entry)) = .ok steps ∧
        Updates c.store s t entry steps ∧ NestedOnce steps) ∧
    ((∀ t, c.opened .target parent = .ok t → t.isDir = false) →
      ∃ error, dirDelta fuel c (some parent) entry (some (srcFullpath parent entry)) = .error error) := by
  constructor
  · intro t targetOpened targetIsDir
    obtain ⟨steps, made, updates⟩ := dirDelta_both_dirs sound texts recurse enough valid sourceOpened
      sourceIsDir targetOpened targetIsDir
    exact ⟨steps, made, updates, updates.nestedOnce⟩
  · intro notDir
    have inside : isEmptyPath parent = false := not_isEmptyPath_of_opened sound sourceOpened notDir
    rcases splitTarget_parent parent valid with same | ⟨rfl, -⟩
    · have notDir' : ∀ t, c.opened .target (splitTarget entry (srcFullpath parent entry)).1 = .ok t →
          t.isDir = false := by
        intro t opened
        by_contra isDir
        rw [Bool.not_eq_false] at isDir
        rw [notDir t (opened_of_components opened isDir same.symm)] at isDir
        cases isDir
      obtain ⟨error, failed⟩ := checkParent_error "source parent" parent parent notDir'
      refine ⟨error, ?_⟩
      simp only [dirDelta, checkParents, inside, Bool.not_false, if_true, failed, bind, Except.bind]
    · cases inside

end Update

section Import

/-- The hashes give their entries as they are listed. -/
def listedOrder : KeyOrder := ⟨fun _ entries => entries, fun _ _ => List.Perm.refl _⟩

/-- The first revision has one file. -/
def firstImport : Context where
  store := ⟨fun _ => ⟨[], List.nodup_nil⟩, fun key => ⟨key.take 1, by
    rw [List.length_take]
    exact lt_of_le_of_lt (Nat.min_le_left 1 _) (by decide)⟩⟩
  fsPath := "db"
  source := ⟨.revision 0, .dir [0, 0] [] []⟩
  sourceRevDiffs := none
  target := ⟨.revision 1, .dir [0, 1] [] [([102], .file [1, 1] [] [97])]⟩
  textDeltas := true
  recurse := true
  order := listedOrder

theorem firstImport_source {way : List Bytes} {node : Node}
    (found : firstImport.source.node.follow way = some node) : node = .dir [0, 0] [] [] := by
  cases way with
  | nil =>
      cases found
      rfl
  | cons name rest => cases found

theorem firstImport_target {way : List Bytes} {node : Node}
    (found : firstImport.target.node.follow way = some node) :
    node = .dir [0, 1] [] [([102], .file [1, 1] [] [97])] ∨ node = .file [1, 1] [] [97] := by
  cases way with
  | nil =>
      cases found
      exact .inl rfl
  | cons name rest =>
      have step : (List.lookup name [([102], Node.file [1, 1] [] [97])]).bind
        (fun child => child.follow rest) = some node := found
      rw [List.lookup_cons] at step
      split at step
      · cases rest with
        | nil =>
            cases step
            exact .inr rfl
        | cons name rest => cases step
      · cases step

theorem firstImport_sound : firstImport.Sound where
  rootName := by
    intro side named
    cases side <;> cases named
  rootIsDir := by
    intro side
    cases side <;> rfl
  nodup := by
    intro side way node found
    cases side with
    | source =>
        rw [firstImport_source found]
        exact List.nodup_nil
    | target =>
        rcases firstImport_target found with rfl | rfl
        · exact List.nodup_singleton _
        · exact List.nodup_nil
  names := by
    intro side way node found name member
    cases side with
    | source =>
        rw [firstImport_source found] at member
        cases member
    | target =>
        rcases firstImport_target found with rfl | rfl
        · rw [List.mem_singleton.mp member]
          rfl
        · cases member
  properId := by
    intro side way node found
    cases side with
    | source =>
        rw [firstImport_source found]
        exact True.intro
    | target =>
        rcases firstImport_target found with rfl | rfl <;> exact True.intro
  sameNode := by
    intro way₁ way₂ node₁ node₂ found₁ found₂ same
    rw [firstImport_source found₁] at same
    rcases firstImport_target found₂ with rfl | rfl <;> cases same
  sameKind := by
    intro way₁ way₂ node₁ node₂ found₁ found₂ related
    rw [firstImport_source found₁] at related ⊢
    rcases firstImport_target found₂ with rfl | rfl
    · rfl
    · exact absurd rfl related

theorem dirDelta_updates_firstImport :
    (∃ steps, dirDelta 2 firstImport (some []) (some [102]) (some [102]) = .ok steps ∧
      Updates firstImport.store firstImport.source.node firstImport.target.node (some [102]) steps ∧
      NestedOnce steps) ∧
    ∃ steps, dirDelta 2 firstImport (some []) none (some []) = .ok steps ∧
      Updates firstImport.store firstImport.source.node firstImport.target.node none steps ∧
      NestedOnce steps := by
  have named : ∀ name ∈ some [102], IsComponent name := by
    intro name same
    cases same
    exact ⟨by decide, by decide⟩
  have high : firstImport.target.node.height ≤ 2 := by decide
  exact ⟨(dirDelta_updates firstImport_sound rfl rfl high named rfl rfl).1 _ rfl rfl,
    (dirDelta_updates firstImport_sound rfl rfl high (fun _ absurd => by cases absurd) rfl rfl).1 _ rfl rfl⟩

end Import

end Subversion.Repos
