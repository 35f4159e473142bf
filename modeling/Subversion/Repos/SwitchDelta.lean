/-
This file shows when the delta between two different paths switches an entry to the target.
-/

import Subversion.Repos.UpdateDelta

namespace Subversion.Repos

open Delta Fs Subr Lib

variable {c : Context} {fuel : Nat} {parent name tgtPath : Bytes}

section Cases

/-- What a delta for an entry can be. -/
inductive ItemCase (fuel : Nat) (c : Context) (parent name tgtPath : Bytes) : List Step → Prop where
  | deleted {error : SvnError} (absent : c.opened .target tgtPath = .error error) :
      ItemCase fuel c parent name tgtPath [.access .target tgtPath, delete 0 name]
  | added {t : Node} {error : SvnError} {entry : Bytes} {steps : List Step} {next : Baton}
      (inTarget : c.opened .target tgtPath = .ok t)
      (missing : c.opened .source (addComponent parent name) = .error error)
      (isEntry : (splitTarget (some name) tgtPath).2 = some entry)
      (made : addFileOrDir (deltaDirs c fuel) c 0 none (splitTarget (some name) tgtPath).1 entry 1 =
        .ok (steps, next)) :
      ItemCase fuel c parent name tgtPath
        (.access .target tgtPath :: .access .source (addComponent parent name) :: steps)
  | same {s t : Node} (inTarget : c.opened .target tgtPath = .ok t)
      (inSource : c.opened .source (addComponent parent name) = .ok s)
      (distance : idDistance s.id t.id = some 0) :
      ItemCase fuel c parent name tgtPath
        [.access .target tgtPath, .access .source (addComponent parent name)]
  | replaced {s t : Node} {entry : Bytes} {steps : List Step} {next : Baton}
      (inTarget : c.opened .target tgtPath = .ok t)
      (inSource : c.opened .source (addComponent parent name) = .ok s)
      (unrelated : idDistance s.id t.id = none)
      (isEntry : (splitTarget (some name) tgtPath).2 = some entry)
      (made : addFileOrDir (deltaDirs c fuel) c 0 none (splitTarget (some name) tgtPath).1 entry 1 =
        .ok (steps, next)) :
      ItemCase fuel c parent name tgtPath (.access .target tgtPath ::
        .access .source (addComponent parent name) :: delete 0 name :: steps)
  | changed {s t : Node} {entry : Bytes} {far : Nat} {steps : List Step} {next : Baton}
      (inTarget : c.opened .target tgtPath = .ok t)
      (inSource : c.opened .source (addComponent parent name) = .ok s)
      (related : idDistance s.id t.id = some (far + 1))
      (isEntry : (splitTarget (some name) tgtPath).2 = some entry)
      (made : replaceFileOrDir (deltaDirs c fuel) c 0 parent name (splitTarget (some name) tgtPath).1
        entry 1 = .ok (steps, next)) :
      ItemCase fuel c parent name tgtPath
        (.access .target tgtPath :: .access .source (addComponent parent name) :: steps)

theorem opened_of_nodeId {side : Side} {path : Bytes} {id : NodeId} (found : nodeId c side path = .ok id) :
    ∃ node, c.opened side path = .ok node ∧ node.id = id := by
  rw [nodeId] at found
  cases opened : c.opened side path with
  | error error =>
      rw [opened] at found
      cases found
  | ok node =>
      rw [opened] at found
      cases found
      exact ⟨node, rfl, rfl⟩

theorem opened_of_nodeId_error {side : Side} {path : Bytes} {error : SvnError}
    (failed : nodeId c side path = .error error) : c.opened side path = .error error := by
  rw [nodeId] at failed
  cases opened : c.opened side path with
  | error other =>
      rw [opened] at failed
      cases failed
      rfl
  | ok node =>
      rw [opened] at failed
      cases failed

theorem withEntry_eq_ok {α : Type} {entry : Option Bytes} {f : Bytes → Except SvnError α} {value : α}
    (made : withEntry entry f = .ok value) : ∃ name, entry = some name ∧ f name = .ok value := by
  cases entry with
  | none => cases made
  | some name => exact ⟨name, rfl, made⟩

theorem emitted_eq_ok {emitted : Except SvnError Emitted} {f : Emitted → List Step} {items : List Step}
    (made : (do return f (← emitted)) = Except.ok items) :
    ∃ steps next, emitted = .ok (steps, next) ∧ items = f (steps, next) := by
  cases emitted with
  | error error => cases made
  | ok result =>
      cases made
      exact ⟨result.1, result.2, rfl, rfl⟩

theorem deltaItem_cases (valid : IsComponent name) {items : List Step}
    (made : deltaItem fuel c parent (some name) tgtPath = .ok items) :
    ItemCase fuel c parent name tgtPath items := by
  obtain ⟨first, more, rfl⟩ := List.exists_cons_of_ne_nil valid.1
  have fullpath : srcFullpath parent (some (first :: more)) = addComponent parent (first :: more) := by
    rw [srcFullpath, if_neg valid.1]
  rw [deltaItem, fullpath] at made
  dsimp only at made
  split at made
  · next error failed =>
      split at made
      · cases made
        exact .deleted (opened_of_nodeId_error failed)
      · cases made
  · next tgtId found =>
      obtain ⟨t, inTarget, rfl⟩ := opened_of_nodeId found
      split at made
      · next error failed =>
          split at made
          · obtain ⟨entry, isEntry, continued⟩ := withEntry_eq_ok made
            obtain ⟨steps, next, isMade, rfl⟩ := emitted_eq_ok continued
            exact .added inTarget (opened_of_nodeId_error failed) isEntry isMade
          · cases made
      · next srcId found' =>
          obtain ⟨s, inSource, rfl⟩ := opened_of_nodeId found'
          split at made
          · next distance =>
              cases made
              exact .same inTarget inSource distance
          · next distance =>
              obtain ⟨entry, isEntry, continued⟩ := withEntry_eq_ok made
              obtain ⟨steps, next, isMade, rfl⟩ := emitted_eq_ok continued
              exact .replaced inTarget inSource distance isEntry isMade
          · next far notZero distance =>
              obtain ⟨entry, isEntry, continued⟩ := withEntry_eq_ok made
              obtain ⟨steps, next, isMade, rfl⟩ := emitted_eq_ok continued
              cases far with
              | zero => exact absurd rfl notZero
              | succ far => exact .changed inTarget inSource distance isEntry isMade

end Cases

section Accesses

theorem mem_access_driver {side : Side} {path : Bytes} {items : List Step} {revision : Int64} :
    .access side path ∈ targetRevision c ++ .call (.openRoot revision 0) ::
      (items ++ [.call (.closeDirectory 0), .call .closeEdit]) ↔ .access side path ∈ items := by
  have notNamed : .access side path ∉ targetRevision c := by
    rw [targetRevision]
    split <;> simp
  simp [notNamed]

theorem mem_access_deltaProplists {source target : Bytes} {change : Bytes → Option Bytes → EditorCall}
    {steps : List Step} (made : deltaProplists c (some source) target change = .ok steps) :
    .access .source source ∈ steps := by
  simp only [deltaProplists] at made
  obtain ⟨changed, -, continued⟩ := bind_eq_ok made
  split at continued
  · obtain ⟨sourceProps, -, continued⟩ := bind_eq_ok continued
    obtain ⟨targetProps, -, continued⟩ := bind_eq_ok continued
    cases continued
    simp
  · cases continued
    simp

theorem mem_access_deltaFiles {baton : Baton} {source target : Bytes} {steps : List Step}
    (made : deltaFiles c baton (some source) target = .ok steps) : .access .source source ∈ steps := by
  rw [deltaFiles] at made
  obtain ⟨props, propsMade, continued⟩ := bind_eq_ok made
  have looked := mem_access_deltaProplists propsMade
  obtain ⟨changed, -, continued⟩ := bind_eq_ok continued
  split at continued
  · obtain ⟨old, -, continued⟩ := bind_eq_ok continued
    obtain ⟨text, -, continued⟩ := bind_eq_ok continued
    obtain ⟨sent, -, continued⟩ := bind_eq_ok continued
    cases continued
    exact List.mem_append_left _ looked
  · cases continued
    exact List.mem_append_left _ looked

theorem mem_access_deltaDirs {dirBaton next : Baton} {source target : Bytes} {result : Emitted}
    (made : deltaDirs c fuel dirBaton (some source) target next = .ok result) :
    .access .source source ∈ result.1 := by
  cases fuel with
  | zero => cases made
  | succ fuel =>
      rw [deltaDirs] at made
      obtain ⟨props, propsMade, continued⟩ := bind_eq_ok made
      have looked := mem_access_deltaProplists propsMade
      obtain ⟨targetEntries, -, continued⟩ := bind_eq_ok continued
      obtain ⟨sourceEntries, -, continued⟩ := bind_eq_ok continued
      obtain ⟨⟨steps, left, next'⟩, -, continued⟩ := bind_eq_ok continued
      cases left with
      | none =>
          cases continued
          exact List.mem_append_left _ looked
      | some found =>
          obtain ⟨deletions, -, continued⟩ := bind_eq_ok continued
          cases continued
          exact List.mem_append_left _ looked

/-- The path of the source is looked up in the target, and the path of the target in the source. -/
theorem mem_access_replaceFileOrDir {dirBaton next : Baton}
    {sourceParent sourceEntry targetParent targetEntry : Bytes} {result : Emitted}
    (made : replaceFileOrDir (deltaDirs c fuel) c dirBaton sourceParent sourceEntry targetParent
      targetEntry next = .ok result) :
    .access .target (addComponent sourceParent sourceEntry) ∈ result.1 ∧
      .access .source (addComponent targetParent targetEntry) ∈ result.1 := by
  rw [replaceFileOrDir] at made
  obtain ⟨isDirectory, -, continued⟩ := bind_eq_ok made
  split at continued
  · obtain ⟨below, belowMade, continued⟩ := bind_eq_ok continued
    have looked := mem_access_deltaDirs belowMade
    cases continued
    exact ⟨List.mem_cons_self, by simp [looked]⟩
  · obtain ⟨steps, stepsMade, continued⟩ := bind_eq_ok continued
    have looked := mem_access_deltaFiles stepsMade
    cases continued
    exact ⟨List.mem_cons_self, by simp [looked]⟩

end Accesses

section Additions

/-- An addition begins with a call that names the new entry. -/
theorem addFileOrDir_starts {deltaDirs : DirDelta} {dirBaton next next' : Baton}
    {targetParent entry : Bytes} {steps : List Step}
    (made : addFileOrDir deltaDirs c dirBaton none targetParent entry next = .ok (steps, next')) :
    ∃ path call more revision, steps = .access .target path :: .call call :: more ∧
      (call = .addDirectory entry dirBaton none revision next ∨
        call = .addFile entry dirBaton none revision next) := by
  rw [addFileOrDir] at made
  obtain ⟨isDirectory, -, continued⟩ := bind_eq_ok made
  dsimp only at continued
  split at continued
  · obtain ⟨below, -, continued⟩ := bind_eq_ok continued
    cases continued
    exact ⟨_, _, _, _, rfl, .inl rfl⟩
  · obtain ⟨more, -, continued⟩ := bind_eq_ok continued
    cases continued
    exact ⟨_, _, _, _, rfl, .inr rfl⟩

/-- An entry that is there cannot be added. -/
theorem run_addFileOrDir_refused {deltaDirs : DirDelta} {dirBaton next next' : Baton}
    {targetParent entry : Bytes} {steps : List Step}
    (made : addFileOrDir deltaDirs c dirBaton none targetParent entry next = .ok (steps, next'))
    {dir : OpenDir} (top : dir.baton = dirBaton) (present : dir.entries entry ≠ none) (anchor : Tree)
    (rest : List OpenDir) : Session.run anchor ⟨dir :: rest, none, next, none⟩ steps = none := by
  obtain ⟨path, call, more, revision, rfl, isCall⟩ := addFileOrDir_starts made
  rw [Session.run_access, Session.run_cons]
  rcases isCall with rfl | rfl
  · simp [Session.step, Session.accept, Session.enterDir, Session.inside, top, present]
  · simp [Session.step, Session.accept, Session.enterFile, Session.inside, top, present]

theorem opened_of_addFileOrDir {deltaDirs : DirDelta} {dirBaton next : Baton}
    {targetParent entry : Bytes} {result : Emitted}
    (made : addFileOrDir deltaDirs c dirBaton none targetParent entry next = .ok result) :
    ∃ t, c.opened .target (addComponent targetParent entry) = .ok t := by
  rw [addFileOrDir] at made
  obtain ⟨isDirectory, found, -⟩ := bind_eq_ok made
  rw [isDir] at found
  obtain ⟨t, opened, -⟩ := bind_eq_ok found
  exact ⟨t, opened⟩

end Additions

section Switch

/-- The entry becomes the node at the path of the target, the source is looked up at and below the path
of the entry, and the target at and below its own path. -/
def Switches (c : Context) (s : Node) (parent name tgtPath : Bytes) (steps : List Step) : Prop :=
  replay (contents c.store s) steps = some (.dir (c.store.props s.propKey).value
      (Function.update (s.look c.store) name
        ((c.opened .target tgtPath).toOption.map (contents c.store)))) ∧
    (∀ path, .access .source path ∈ steps → components (addComponent parent name) <+: components path) ∧
    ∀ path, .access .target path ∈ steps → components tgtPath <+: components path

/-- Either nothing is opened, or the entry is made anew under the name it already had. -/
def CanSwitch (c : Context) (parent name tgtPath : Bytes) : Prop :=
  match c.opened .target tgtPath, c.opened .source (addComponent parent name) with
  | .error _, _ => True
  | .ok _, .error _ => basename tgtPath = name
  | .ok t, .ok s =>
      match idDistance s.id t.id with
      | none => basename tgtPath = name
      | some distance => distance = 0

theorem splitTarget_entry {entry : Bytes} (isEntry : (splitTarget (some name) tgtPath).2 = some entry) :
    tgtPath ≠ [] ∧ splitTarget (some name) tgtPath = ((splitPath tgtPath).1, some entry) ∧
      basename tgtPath = entry := by
  rw [splitTarget] at isEntry ⊢
  split at isEntry
  · cases isEntry
  · next splits =>
      rw [if_neg splits]
      refine ⟨?_, ?_, Option.some.inj isEntry⟩
      · rintro rfl
        exact splits (.inr rfl)
      · rw [Option.some.inj isEntry]

/-- The two parts lead to the same place again. -/
theorem components_rejoin {entry : Bytes} (isEntry : (splitTarget (some name) tgtPath).2 = some entry) :
    components (addComponent (splitTarget (some name) tgtPath).1 entry) = components tgtPath := by
  obtain ⟨nonempty, split, isBase⟩ := splitTarget_entry isEntry
  rw [split]
  by_cases canonical : canonicalize tgtPath = []
  · -- There are only separators, of which one is taken for a name.
    rw [basename, if_neg nonempty, if_pos canonical] at isBase
    have parent : (splitPath tgtPath).1 = removeComponent (canonicalize tgtPath) := rfl
    rw [← components_canonicalize tgtPath, ← isBase, parent, canonical]
    rfl
  · obtain ⟨valid, parts⟩ := splitPath_components canonical
    have last : (splitPath tgtPath).2 = entry := isBase
    rw [last] at valid parts
    rw [parts]
    exact components_addComponent _ valid

theorem follow_append_single {way : List Bytes} {entry : Bytes} :
    ∀ {node found : Node}, node.follow (way ++ [entry]) = some found →
      ∃ above, node.follow way = some above ∧ above.child entry = some found := by
  induction way with
  | nil =>
      intro node found below
      rw [List.nil_append, Node.follow] at below
      obtain ⟨child, inside, same⟩ := Option.bind_eq_some_iff.mp below
      cases same
      exact ⟨node, rfl, inside⟩
  | cons first rest ih =>
      intro node found below
      rw [List.cons_append, Node.follow] at below
      obtain ⟨child, inside, later⟩ := Option.bind_eq_some_iff.mp below
      obtain ⟨above, way, isChild⟩ := ih later
      refine ⟨above, ?_, isChild⟩
      rw [Node.follow, inside]
      exact way

theorem opened_rejoin (sound : c.Sound) {t : Node} (inTarget : c.opened .target tgtPath = .ok t)
    (valid : IsComponent name) (isEntry : (splitTarget (some name) tgtPath).2 = some name) :
    c.opened .target (addComponent (splitTarget (some name) tgtPath).1 name) = .ok t := by
  have rejoined := components_rejoin isEntry
  rw [components_addComponent _ valid] at rejoined
  have way := follow_components inTarget
  rw [← rejoined] at way
  obtain ⟨above, found, isChild⟩ := follow_append_single way
  exact c.opened_child sound (openPath_of_follow (Node.isDir_of_child isChild) found) isChild

theorem run_of_replay_driver {props : Bytes → Option Bytes} {entries : Bytes → Option Tree}
    {items : List Step} {revision : Int64} {tree : Tree}
    (replayed : replay (.dir props entries) (targetRevision c ++ .call (.openRoot revision 0) ::
      (items ++ [.call (.closeDirectory 0), .call .closeEdit])) = some tree) :
    ∃ session, Session.run (.dir props entries) ⟨[⟨0, [], props, entries⟩], none, 1, none⟩ items =
      some session ∧ ∀ dir next, session = ⟨[dir], none, next, none⟩ → tree = dir.tree := by
  have named : ∀ session : Session, session.run (.dir props entries) (targetRevision c) = some session := by
    intro session
    rw [targetRevision]
    split <;> rfl
  have root : Session.step (.dir props entries) ⟨[], none, 0, none⟩ (.call (.openRoot revision 0)) =
      some ⟨[⟨0, [], props, entries⟩], none, 1, none⟩ := rfl
  rw [replay, Session.run_append, named, Option.bind_some, Session.run_cons, root, Option.bind_some,
    Session.run_append] at replayed
  obtain ⟨last, runs, closed⟩ := Option.bind_eq_some_iff.mp replayed
  obtain ⟨session, middle, after⟩ := Option.bind_eq_some_iff.mp runs
  refine ⟨session, middle, ?_⟩
  rintro dir next rfl
  by_cases top : dir.baton = 0
  · simp only [Session.run_cons, Session.run_nil, Session.step, Session.accept, Session.inside, top,
      if_true, Option.bind_some, Option.some.injEq] at after
    rw [← after] at closed
    exact (Option.some.inj closed).symm
  · simp [Session.run_cons, Session.step, Session.accept, Session.inside, top] at after

variable (sound : c.Sound) (texts : c.textDeltas = true) (recurse : c.recurse = true)
  (enough : c.target.node.height ≤ fuel)

include sound texts recurse enough in
/-- An addition under another name leaves the entry missing. -/
theorem run_addition_misses {targetParent entry : Bytes} {steps : List Step} {next : Baton}
    (made : addFileOrDir (deltaDirs c fuel) c 0 none targetParent entry 1 = .ok (steps, next))
    (differ : name ≠ entry) {dir : OpenDir} (top : dir.baton = 0) (absent : dir.entries name = none)
    {anchor : Tree} {session : Session}
    (runs : Session.run anchor ⟨[dir], none, 1, none⟩ steps = some session) :
    ∃ dir' : OpenDir, session = ⟨[dir'], none, next, none⟩ ∧ dir'.entries name = none := by
  by_cases free : dir.entries entry = none
  · obtain ⟨t, opened⟩ := opened_of_addFileOrDir made
    obtain ⟨steps', next', again, adds, -⟩ := addFileOrDir_spec (deltaDirs_spec sound texts recurse fuel)
      texts opened ((Node.height_follow _ (follow_components opened)).trans enough) 0 1
    rw [made] at again
    cases again
    rw [adds dir top free] at runs
    cases runs
    refine ⟨_, rfl, ?_⟩
    rw [OpenDir.set]
    exact (Function.update_of_ne differ _ _).trans absent
  · rw [run_addFileOrDir_refused made top free] at runs
    cases runs

theorem child_of_opened {side : Side} {node : Node} (opened : c.opened side parent = .ok node)
    (isDir : node.isDir = true) (valid : IsComponent name) :
    node.child name = (c.opened side (addComponent parent name)).toOption := by
  rw [Context.opened, openPath_addComponent opened isDir valid]
  cases node.child name <;> rfl

include sound texts recurse enough in
/-- A new entry of the right name is what the target has. -/
theorem switches_addition {s t : Node} (valid : IsComponent name) (sourceIsDir : s.isDir = true)
    {steps before : List Step} {next : Baton} {revision : Int64}
    (inTarget : c.opened .target tgtPath = .ok t)
    (isEntry : (splitTarget (some name) tgtPath).2 = some name)
    (made : addFileOrDir (deltaDirs c fuel) c 0 none (splitTarget (some name) tgtPath).1 name 1 =
      .ok (steps, next))
    (clears : ∀ dir : OpenDir, dir.baton = 0 → dir.entries name = s.look c.store name →
      Turns before 1 1 dir (dir.set name none))
    (looks : ∀ side path, .access side path ∈ before → path =
      match side with
      | .source => addComponent parent name
      | .target => tgtPath) :
    Switches c s parent name tgtPath (targetRevision c ++ .call (.openRoot revision 0) ::
      ((before ++ steps) ++ [.call (.closeDirectory 0), .call .closeEdit])) := by
  have opened := opened_rejoin sound inTarget valid isEntry
  obtain ⟨steps', next', again, adds, only⟩ := addFileOrDir_spec (deltaDirs_spec sound texts recurse fuel)
    texts opened ((Node.height_follow _ (follow_components opened)).trans enough) 0 1
  rw [made] at again
  cases again
  rw [components_rejoin isEntry] at only
  refine ⟨?_, ?_, ?_⟩
  · rw [contents_dir c.store sourceIsDir, inTarget]
    have cleared := clears ⟨0, [], (c.store.props s.propKey).value, s.look c.store⟩ rfl rfl
    have turns := cleared.trans (adds _ rfl (Function.update_self _ _ _))
    rw [OpenDir.set_set] at turns
    exact replay_driver turns c revision
  · intro path member
    rcases List.mem_append.mp (mem_access_driver.mp member) with early | late
    · rw [looks .source path early]
    · cases (only .source path late).1
  · intro path member
    rcases List.mem_append.mp (mem_access_driver.mp member) with early | late
    · rw [looks .target path early]
    · exact (only .target path late).2

include sound texts recurse enough in
/-- A new entry of another name is not what was asked for. -/
theorem not_switches_addition {s t : Node} (sourceIsDir : s.isDir = true) {steps before : List Step}
    {entry targetParent : Bytes} {next : Baton} {revision : Int64} (differ : name ≠ entry)
    (inTarget : c.opened .target tgtPath = .ok t)
    (made : addFileOrDir (deltaDirs c fuel) c 0 none targetParent entry 1 = .ok (steps, next))
    (clears : ∀ dir : OpenDir, dir.baton = 0 → dir.entries name = s.look c.store name →
      Turns before 1 1 dir (dir.set name none)) :
    ¬ Switches c s parent name tgtPath (targetRevision c ++ .call (.openRoot revision 0) ::
      ((before ++ steps) ++ [.call (.closeDirectory 0), .call .closeEdit])) := by
  rintro ⟨replayed, -, -⟩
  rw [contents_dir c.store sourceIsDir, inTarget] at replayed
  obtain ⟨session, runs, closed⟩ := run_of_replay_driver replayed
  have cleared := clears ⟨0, [], (c.store.props s.propKey).value, s.look c.store⟩ rfl rfl
  rw [Session.run_append, cleared] at runs
  obtain ⟨dir, same, missing⟩ := run_addition_misses sound texts recurse enough made differ rfl
    (Function.update_self _ _ _) runs
  have result := closed dir next same
  rw [OpenDir.tree, Tree.dir.injEq] at result
  have found := congrFun result.2 name
  rw [missing, Function.update_self] at found
  cases found

include sound texts recurse enough in
/-- A successful switch does what was asked for exactly if it opens nothing and adds the entry under its
own name. -/
theorem dirDelta_switches_iff {s : Node} (valid : IsComponent name)
    (sourceOpened : c.opened .source parent = .ok s) (sourceIsDir : s.isDir = true)
    (differ : components tgtPath ≠ components (addComponent parent name)) {steps : List Step}
    (succeeded : dirDelta fuel c (some parent) (some name) (some tgtPath) = .ok steps) :
    Switches c s parent name tgtPath steps ↔ CanSwitch c parent name tgtPath := by
  have lookup := child_of_opened sourceOpened sourceIsDir valid
  rw [dirDelta] at succeeded
  obtain ⟨-, -, continued⟩ := bind_eq_ok succeeded
  obtain ⟨items, isMade, continued⟩ := bind_eq_ok continued
  cases continued
  cases deltaItem_cases valid isMade with
  | deleted absent =>
      rw [CanSwitch, absent]
      refine iff_of_true ⟨?_, ?_, ?_⟩ trivial
      · rw [contents_dir c.store sourceIsDir, absent]
        exact replay_driver ((turns_delete rfl name 1).cons_access _ _) c _
      · intro path member
        simpa [delete] using mem_access_driver.mp member
      · intro path member
        have same : path = tgtPath := by simpa [delete] using mem_access_driver.mp member
        rw [same]
  | @added t error entry steps next inTarget missing isEntry made =>
      rw [CanSwitch, inTarget, missing, (splitTarget_entry isEntry).2.2]
      rw [missing] at lookup
      have clears : ∀ dir : OpenDir, dir.baton = 0 → dir.entries name = s.look c.store name →
          Turns [.access .target tgtPath, .access .source (addComponent parent name)] 1 1 dir
            (dir.set name none) := by
        intro dir _ same
        rw [OpenDir.set_self (by rw [same, Node.look, lookup]; rfl)]
        exact Turns.refl 1 dir
      by_cases named : name = entry
      · subst named
        refine iff_of_true (switches_addition sound texts recurse enough valid sourceIsDir inTarget isEntry
          made clears ?_) rfl
        intro side path member
        cases side <;> simpa using member
      · exact iff_of_false (not_switches_addition sound texts recurse enough sourceIsDir named inTarget made
          clears) (Ne.symm named)
  | @same old t inTarget inSource distance =>
      rw [CanSwitch, inTarget, inSource]
      dsimp only
      rw [distance]
      refine iff_of_true ⟨?_, ?_, ?_⟩ rfl
      · have sourceWay := follow_components inSource
        have targetWay := follow_components inTarget
        have sameId := eq_of_idDistance (sound.properId .source _ old sourceWay)
          (sound.properId .target _ t targetWay) distance
        have sameNode := sound.sameNode _ _ old t sourceWay targetWay sameId
        rw [inSource] at lookup
        have unchanged : Function.update (s.look c.store) name (some (contents c.store t)) =
            s.look c.store := by
          rw [Function.update_eq_self_iff, Node.look, lookup, sameNode]
          rfl
        rw [contents_dir c.store sourceIsDir, inTarget]
        apply replay_driver
        intro anchor rest
        exact congrArg (fun entries => some (Session.mk
          (⟨0, [], (c.store.props s.propKey).value, entries⟩ :: rest) none 1 none)) unchanged.symm
      · intro path member
        have isPath : path = addComponent parent name := by simpa using mem_access_driver.mp member
        rw [isPath]
      · intro path member
        have isPath : path = tgtPath := by simpa using mem_access_driver.mp member
        rw [isPath]
  | @replaced old t entry steps next inTarget inSource unrelated isEntry made =>
      rw [CanSwitch, inTarget, inSource]
      dsimp only
      rw [unrelated]
      dsimp only
      rw [(splitTarget_entry isEntry).2.2]
      have clears : ∀ dir : OpenDir, dir.baton = 0 → dir.entries name = s.look c.store name →
          Turns [.access .target tgtPath, .access .source (addComponent parent name), delete 0 name] 1 1 dir
            (dir.set name none) := by
        intro dir top _
        exact ((turns_delete top name 1).cons_access _ _).cons_access _ _
      by_cases named : name = entry
      · subst named
        refine iff_of_true (switches_addition sound texts recurse enough valid sourceIsDir inTarget isEntry
          made clears ?_) rfl
        intro side path member
        cases side <;> simpa [delete] using member
      · exact iff_of_false (not_switches_addition sound texts recurse enough sourceIsDir named inTarget made
          clears) (Ne.symm named)
  | @changed old t entry far steps next inTarget inSource related isEntry made =>
      rw [CanSwitch, inTarget, inSource]
      dsimp only
      rw [related]
      refine iff_of_false ?_ (Nat.succ_ne_zero far)
      rintro ⟨-, fromSource, fromTarget⟩
      obtain ⟨looked, looked'⟩ := mem_access_replaceFileOrDir made
      have above := fromTarget _ (mem_access_driver.mpr
        (List.mem_cons_of_mem _ (List.mem_cons_of_mem _ looked)))
      have below := fromSource _ (mem_access_driver.mpr
        (List.mem_cons_of_mem _ (List.mem_cons_of_mem _ looked')))
      rw [components_rejoin isEntry] at below
      exact differ (above.eq_of_length (le_antisymm above.length_le below.length_le))

end Switch

section Branches

/-- A file, a branch of it, and a directory with another file of the first one's name. -/
def branchTree : Node :=
  .dir [0, 4] [] [([97], .file [1, 1] [] [120]), ([98], .file [1, 1, 1, 1] [] [121]),
    ([100], .dir [2, 1] [] [([97], .file [3, 1] [] [122])])]

def branches : Context where
  store := firstImport.store
  fsPath := "db"
  source := ⟨.revision 4, branchTree⟩
  sourceRevDiffs := none
  target := ⟨.revision 4, branchTree⟩
  textDeltas := true
  recurse := true
  order := listedOrder

theorem follow_file {id : NodeId} {propKey dataKey : Bytes} {way : List Bytes} {node : Node}
    (found : (Node.file id propKey dataKey).follow way = some node) : node = .file id propKey dataKey := by
  cases way with
  | nil =>
      cases found
      rfl
  | cons name rest => cases found

/-- The nodes of the tree. -/
def InBranchTree (node : Node) : Prop :=
  node = branchTree ∨ node = .file [1, 1] [] [120] ∨ node = .file [1, 1, 1, 1] [] [121] ∨
    node = .dir [2, 1] [] [([97], .file [3, 1] [] [122])] ∨ node = .file [3, 1] [] [122]

theorem inBranchTree_of_follow {way : List Bytes} {node : Node}
    (found : branchTree.follow way = some node) : InBranchTree node := by
  cases way with
  | nil =>
      cases found
      exact .inl rfl
  | cons name rest =>
      rw [Node.follow] at found
      obtain ⟨child, inside, below⟩ := Option.bind_eq_some_iff.mp found
      rw [Node.child, lookup_eq_some_iff (by decide)] at inside
      simp only [branchTree, Node.entries, List.mem_cons, Prod.mk.injEq, List.not_mem_nil, or_false]
        at inside
      rcases inside with ⟨-, rfl⟩ | ⟨-, rfl⟩ | ⟨-, rfl⟩
      · exact .inr (.inl (follow_file below))
      · exact .inr (.inr (.inl (follow_file below)))
      · cases rest with
        | nil =>
            cases below
            exact .inr (.inr (.inr (.inl rfl)))
        | cons name rest =>
            rw [Node.follow] at below
            obtain ⟨file, inside, below⟩ := Option.bind_eq_some_iff.mp below
            rw [Node.child, lookup_eq_some_iff (by decide)] at inside
            simp only [Node.entries, List.mem_cons, Prod.mk.injEq, List.not_mem_nil, or_false] at inside
            rw [inside.2] at below
            exact .inr (.inr (.inr (.inr (follow_file below))))

theorem branches_follow (side : Side) {way : List Bytes} {node : Node}
    (found : (branches.root side).node.follow way = some node) : InBranchTree node := by
  cases side <;> exact inBranchTree_of_follow found

theorem branches_sound : branches.Sound where
  rootName := by
    intro side named
    cases side <;> cases named
  rootIsDir := by
    intro side
    cases side <;> rfl
  nodup := by
    intro side way node found
    rcases branches_follow side found with rfl | rfl | rfl | rfl | rfl <;> decide
  names := by
    intro side way node found
    rcases branches_follow side found with rfl | rfl | rfl | rfl | rfl <;> decide
  properId := by
    intro side way node found
    rcases branches_follow side found with rfl | rfl | rfl | rfl | rfl
    · exact trivial
    · exact trivial
    · exact ⟨Nat.one_pos, trivial⟩
    · exact trivial
    · exact trivial
  sameNode := by
    intro way₁ way₂ node₁ node₂ found₁ found₂ same
    rcases inBranchTree_of_follow found₁ with rfl | rfl | rfl | rfl | rfl <;>
      rcases inBranchTree_of_follow found₂ with rfl | rfl | rfl | rfl | rfl <;>
      first
        | rfl
        | exact absurd same (by decide)
  sameKind := by
    intro way₁ way₂ node₁ node₂ found₁ found₂ related
    rcases inBranchTree_of_follow found₁ with rfl | rfl | rfl | rfl | rfl <;>
      rcases inBranchTree_of_follow found₂ with rfl | rfl | rfl | rfl | rfl <;>
      first
        | rfl
        | exact absurd (by decide) related

theorem dirDelta_switches_unrelated :
    ∃ steps, dirDelta 3 branches (some []) (some [97]) (some [100, 47, 97]) = .ok steps ∧
      Switches branches branchTree [] [97] [100, 47, 97] steps := by
  cases made : dirDelta 3 branches (some []) (some [97]) (some [100, 47, 97]) with
  | error error =>
      have succeeds : (dirDelta 3 branches (some []) (some [97]) (some [100, 47, 97])).toOption.isSome =
        true := by decide
      rw [made] at succeeds
      cases succeeds
  | ok steps =>
      refine ⟨steps, rfl, (dirDelta_switches_iff branches_sound rfl rfl ?_ ?_ rfl rfl ?_ made).mpr rfl⟩
      · decide
      · exact ⟨by decide, by decide⟩
      · decide

def Tree.textAt (name : Bytes) : Tree → Option Bytes
  | .file _ _ => none
  | .dir _ entries =>
      match entries name with
      | some (.file _ text) => some text
      | _ => none

/-- The first file keeps its own text when it is switched to the branch. -/
theorem branch_is_not_switched_to :
    ∃ steps, dirDelta 3 branches (some []) (some [97]) (some [98]) = .ok steps ∧
      ((replay (contents branches.store branchTree) steps).bind (Tree.textAt [97])) = some [120] ∧
      ¬ Switches branches branchTree [] [97] [98] steps := by
  cases made : dirDelta 3 branches (some []) (some [97]) (some [98]) with
  | error error =>
      have succeeds : (dirDelta 3 branches (some []) (some [97]) (some [98])).toOption.isSome = true := by
        decide
      rw [made] at succeeds
      cases succeeds
  | ok steps =>
      have kept : ((dirDelta 3 branches (some []) (some [97]) (some [98])).toOption.bind fun steps =>
          (replay (contents branches.store branchTree) steps).bind (Tree.textAt [97])) = some [120] := by
        decide
      rw [made] at kept
      refine ⟨steps, rfl, kept, ?_⟩
      rintro ⟨replayed, -, -⟩
      have text : (replay (contents branches.store branchTree) steps).bind (Tree.textAt [97]) =
          some [120] := kept
      rw [replayed] at text
      exact absurd text (by decide)

end Branches

end Subversion.Repos
