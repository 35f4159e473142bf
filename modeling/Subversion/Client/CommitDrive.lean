/-
This file follows the drive of an editor through sorted commit items and shows which directories it opens.
-/

import Subversion.Client.EditorRules

namespace Subversion.Client

open Delta Subr Wc Lib

section Text

theorem count_separator_component {component : Bytes} (name : IsComponent component) :
    component.count separator = 0 :=
  List.count_eq_zero.mpr name.2

theorem count_separator_belowPath (components : List Bytes) :
    (∀ component ∈ components, IsComponent component) →
      (belowPath components).count separator = components.length := by
  induction components with
  | nil => exact fun _ => rfl
  | cons first rest ih =>
      intro names
      rw [belowPath_cons, List.count_cons_self, List.count_append,
        count_separator_component (names first List.mem_cons_self),
        ih fun name member => names name (List.mem_cons_of_mem _ member), List.length_cons]
      omega

/-- The components of a relative path are counted by its separators. -/
theorem countComponents_joinPath {components : List Bytes}
    (names : ∀ component ∈ components, IsComponent component) (nonempty : components ≠ []) :
    countComponents (joinPath components) = components.length := by
  cases components with
  | nil => exact absurd rfl nonempty
  | cons first rest =>
      obtain ⟨present, name⟩ := names first List.mem_cons_self
      have counted := count_separator_belowPath rest
        fun name member => names name (List.mem_cons_of_mem _ member)
      cases first with
      | nil => exact absurd rfl present
      | cons byte first =>
          rw [List.mem_cons, not_or] at name
          have notSeparator : joinPath ((byte :: first) :: rest) ≠ [separator] := by
            rw [joinPath, List.cons_append]
            intro same
            exact name.1 (List.cons.inj same).1.symm
          rw [countComponents, if_neg notSeparator, joinPath, List.cons_append, List.drop_one,
            List.tail_cons, List.count_append, List.count_eq_zero.mpr name.2, counted, List.length_cons]
          omega

/-- What is left of a path after one of its ancestors. -/
theorem drop_joinPath (common : List Bytes) {dropped : List Bytes} (nonempty : dropped ≠ [])
    (names : ∀ component ∈ common, IsComponent component) :
    (joinPath (common ++ dropped)).drop
      (if (joinPath common).length = 0 then 0 else (joinPath common).length + 1) = joinPath dropped := by
  by_cases empty : common = []
  · subst empty
    rfl
  · cases dropped with
    | nil => exact absurd rfl nonempty
    | cons first rest =>
        have present := joinPath_ne_nil names empty
        rw [if_neg (fun zero => present (List.length_eq_zero_iff.mp zero)),
          joinPath_append _ empty, belowPath_cons, List.append_cons, joinPath]
        exact List.drop_left' (by simp)

/-- The paths that are reached by adding the components one after the other. -/
def stepsBelow (common : List Bytes) : List Bytes → List (List Bytes)
  | [] => []
  | component :: rest => (common ++ [component]) :: stepsBelow (common ++ [component]) rest

theorem prefixesBeyond_append (more : List Bytes) :
    ∀ common, prefixesBeyond common.length (common ++ more) = stepsBelow common more := by
  induction more with
  | nil =>
      intro common
      simp [prefixesBeyond, stepsBelow]
  | cons component more ih =>
      intro common
      rw [stepsBelow, ← ih (common ++ [component])]
      have before : (common ++ component :: more).length - common.length = more.length + 1 := by simp
      have after : (common ++ [component] ++ more).length - (common ++ [component]).length =
          more.length := by
        rw [List.length_append]
        omega
      rw [prefixesBeyond, before, List.range'_succ, List.map_cons, prefixesBeyond, after,
        List.append_cons, List.length_append, List.length_singleton]
      congr 1
      exact List.take_left' (by simp)

/-- The texts that end at the separators are the ancestors. -/
theorem pieces_below (more : List Bytes) :
    ∀ (before : List Bytes) (start name : Bytes), start ++ name = joinPath before → before ≠ [] →
      (∀ component ∈ more, IsComponent component) → separator ∉ name →
      pieces start (name ++ belowPath more) =
        joinPath before :: (stepsBelow before more).map joinPath := by
  -- The inner induction passes over the rest of one name.
  have passed : ∀ (name rest start : Bytes), separator ∉ name →
      pieces start (name ++ rest) = pieces (start ++ name) rest := by
    intro name rest
    induction name with
    | nil =>
        intro start _
        rw [List.nil_append, List.append_nil]
    | cons byte name ih =>
        intro start absent
        rw [List.mem_cons, not_or] at absent
        rw [List.cons_append, pieces, if_neg (Ne.symm absent.1), ih _ absent.2, List.append_assoc]
        rfl
  induction more with
  | nil =>
      intro before start name same _ _ absent
      rw [passed name _ start absent, same]
      rfl
  | cons component more ih =>
      intro before start name same nonempty names absent
      have next : joinPath before ++ [separator] ++ component = joinPath (before ++ [component]) := by
        rw [joinPath_append _ nonempty, belowPath_singleton, List.append_assoc]
        rfl
      rw [passed name _ start absent, same, belowPath_cons, pieces, if_pos rfl,
        ih (before ++ [component]) _ component next (by simp)
          (fun other member => names other (List.mem_cons_of_mem _ member))
          (names component List.mem_cons_self).2]
      rfl

/-- The directories that are opened on the way down from an ancestor. -/
theorem pieces_joinPath (common : List Bytes) {more : List Bytes} (nonempty : more ≠ [])
    (names : ∀ component ∈ more, IsComponent component) :
    pieces ((joinPath (common ++ more)).take ((joinPath common).length + 1))
      ((joinPath (common ++ more)).drop ((joinPath common).length + 1)) =
        (stepsBelow common more).map joinPath := by
  cases more with
  | nil => exact absurd rfl nonempty
  | cons component more =>
      have name := names component List.mem_cons_self
      have later : ∀ other ∈ more, IsComponent other :=
        fun other member => names other (List.mem_cons_of_mem _ member)
      by_cases empty : common = []
      · subst empty
        obtain ⟨present, absent⟩ := name
        cases component with
        | nil => exact absurd rfl present
        | cons byte rest =>
            rw [List.mem_cons, not_or] at absent
            exact pieces_below more [byte :: rest] [byte] rest (joinPath_singleton _).symm
              (by simp) later absent.2
      · have split : joinPath (common ++ component :: more) =
            (joinPath common ++ [separator]) ++ (component ++ belowPath more) := by
          rw [joinPath_append _ empty, belowPath_cons, List.append_cons]
        have next : joinPath common ++ [separator] ++ component = joinPath (common ++ [component]) := by
          rw [joinPath_append _ empty, belowPath_singleton, List.append_assoc]
          rfl
        rw [split, List.take_left' (by simp), List.drop_left' (by simp),
          pieces_below more (common ++ [component]) _ component next (by simp) later name.2]
        rfl

end Text

section Stack

/-- The directories that are open on the way to a path, one for each of its ancestors. -/
inductive OpenPath : List Bytes → List (Baton × Bytes) → Prop where
  | root (baton : Baton) : OpenPath [] [(baton, [])]
  | inside {path : List Bytes} {dirs : List (Baton × Bytes)} (component : Bytes) (baton : Baton) :
      OpenPath path dirs →
        OpenPath (path ++ [component]) ((baton, joinPath (path ++ [component])) :: dirs)

theorem OpenPath.head {path : List Bytes} {dirs : List (Baton × Bytes)} (isOpen : OpenPath path dirs) :
    ∃ baton rest, dirs = (baton, joinPath path) :: rest := by
  cases isOpen with
  | root baton => exact ⟨baton, [], rfl⟩
  | inside component baton _ => exact ⟨baton, _, rfl⟩

theorem OpenPath.length {path : List Bytes} {dirs : List (Baton × Bytes)} (isOpen : OpenPath path dirs) :
    dirs.length = path.length + 1 := by
  induction isOpen with
  | root baton => rfl
  | inside component baton _ ih => simp [ih]

theorem OpenPath.parent {whole : List Bytes} {dirs : List (Baton × Bytes)} (isOpen : OpenPath whole dirs) :
    ∀ {path component}, whole = path ++ [component] → OpenPath path (dirs.drop 1) := by
  cases isOpen with
  | root baton => exact fun same => absurd same.symm (by simp)
  | inside component baton above =>
      intro path other same
      rw [(List.append_inj' same rfl).1] at above
      exact above

/-- Leaving as many directories as a path has more components leaves the shorter path open. -/
theorem OpenPath.drop {common : List Bytes} (dropped : List Bytes) :
    ∀ {dirs : List (Baton × Bytes)}, OpenPath (common ++ dropped) dirs →
      OpenPath common (dirs.drop dropped.length) := by
  induction dropped using List.reverseRecOn with
  | nil =>
      intro dirs isOpen
      rw [List.append_nil] at isOpen
      exact isOpen
  | append_singleton dropped component ih =>
      intro dirs isOpen
      have above := ih (isOpen.parent (List.append_assoc common dropped [component]).symm)
      rw [List.drop_drop] at above
      rw [List.length_append, List.length_singleton, Nat.add_comm]
      exact above

theorem popTimes_eq (count : Nat) :
    ∀ drive : Drive, count ≤ drive.stack.length → popTimes count drive =
      .ok { drive with
        stack := drive.stack.drop count
        calls := drive.calls ++ (drive.stack.take count).map .closeDirectory } := by
  induction count with
  | zero =>
      intro drive _
      simp [popTimes]
  | succ count ih =>
      intro drive bound
      cases found : drive.stack with
      | nil => simp [found] at bound
      | cons baton rest =>
          rw [found, List.length_cons] at bound
          have popped : popStack drive = .ok { drive.call (.closeDirectory baton) with stack := rest } := by
            rw [popStack, found]
          rw [popTimes, popped]
          refine (ih _ (by simpa using bound)).trans ?_
          simp [Drive.call]

/-- The innermost directories may be closed. -/
theorem Editor.run_close (count : Nat) :
    ∀ editor : Editor, count ≤ editor.dirs.length →
      ∃ recent, editor.run (((editor.dirs.map Prod.fst).take count).map .closeDirectory) =
        some { editor with dirs := editor.dirs.drop count, recent := recent } := by
  induction count with
  | zero =>
      intro editor _
      exact ⟨editor.recent, rfl⟩
  | succ count ih =>
      intro editor bound
      cases found : editor.dirs with
      | nil => simp [found] at bound
      | cons dir dirs =>
          rw [found, List.length_cons] at bound
          obtain ⟨recent, rest⟩ := ih { editor with dirs := dirs, recent := none } (by simpa using bound)
          refine ⟨recent, ?_⟩
          have first : editor.accept (.closeDirectory dir.1) =
              some { editor with dirs := dirs, recent := none } := by
            simp [Editor.accept, found]
          rw [List.map_cons, List.take_succ_cons, List.map_cons, Editor.run_cons, first]
          exact rest

end Stack

section Steps

/-- The driver and an editor that accepted all its calls agree on the batons. -/
structure InStep (path : List Bytes) (editor : Editor) (drive : Drive) : Prop where
  accepted : Editor.start.run drive.calls = some editor
  stack : editor.dirs.map Prod.fst = drive.stack
  isOpen : OpenPath path editor.dirs
  next : editor.next = drive.next
  files : editor.files = drive.fileMods.map Prod.snd
  older : ∀ baton ∈ editor.files, baton < editor.next

theorem InStep.init : InStep [] ⟨[(0, [])], [], none, 1⟩ initStack where
  accepted := rfl
  stack := rfl
  isOpen := .root 0
  next := rfl
  files := rfl
  older := fun baton member => by cases member

theorem InStep.stack_eq {path : List Bytes} {editor : Editor} {drive : Drive}
    (inStep : InStep path editor drive) : ∃ baton rest, drive.stack = baton :: rest ∧
      editor.dirs.head? = some (baton, joinPath path) := by
  obtain ⟨baton, rest, dirs⟩ := inStep.isOpen.head
  refine ⟨baton, rest.map Prod.fst, ?_, ?_⟩
  · rw [← inStep.stack, dirs, List.map_cons]
  · rw [dirs, List.head?_cons]

/-- A path below the innermost directory has its baton as the one of its parent. -/
theorem isParent_of_head {editor : Editor} {baton : Baton} {path : List Bytes} {component : Bytes}
    (head : editor.dirs.head? = some (baton, joinPath path))
    (names : ∀ name ∈ path ++ [component], IsComponent name) :
    editor.IsParent baton (joinPath (path ++ [component])) := by
  refine ⟨?_, joinPath_ne_nil names (by simp)⟩
  rw [removeComponent_joinPath _ names, List.dropLast_concat]
  exact head

/-- Leaving the directories below an ancestor. -/
theorem popTimes_inStep {common dropped : List Bytes} {editor : Editor} {drive : Drive}
    (inStep : InStep (common ++ dropped) editor drive) :
    ∃ drive' editor', ∃ closed : List Baton, popTimes dropped.length drive = .ok drive' ∧
      InStep common editor' drive' ∧ drive'.calls = drive.calls ++ closed.map .closeDirectory ∧
      drive'.fileMods = drive.fileMods := by
  have bound : dropped.length ≤ editor.dirs.length := by
    rw [inStep.isOpen.length, List.length_append]
    omega
  have stackBound : dropped.length ≤ drive.stack.length := by
    rw [← inStep.stack, List.length_map]
    exact bound
  obtain ⟨recent, closes⟩ := Editor.run_close dropped.length editor bound
  rw [inStep.stack] at closes
  refine ⟨_, { editor with dirs := editor.dirs.drop dropped.length, recent := recent },
    drive.stack.take dropped.length, popTimes_eq dropped.length drive stackBound, ?_, rfl, rfl⟩
  exact {
    accepted := by
      rw [Editor.run_append, inStep.accepted]
      exact closes
    stack := by rw [List.map_drop, inStep.stack]
    isOpen := inStep.isOpen.drop dropped
    next := inStep.next
    files := inStep.files
    older := inStep.older }

/-- Opening one directory below the innermost one. -/
theorem pushStack_inStep {path : List Bytes} {component : Bytes} {editor : Editor} {drive : Drive}
    (inStep : InStep path editor drive) (names : ∀ name ∈ path ++ [component], IsComponent name) :
    ∃ drive' editor' parent,
      pushStack (joinPath (path ++ [component])) none invalidRevnum false drive = .ok drive' ∧
      InStep (path ++ [component]) editor' drive' ∧
      drive'.calls = drive.calls ++
        [.openDirectory (joinPath (path ++ [component])) parent invalidRevnum drive.next] ∧
      drive'.fileMods = drive.fileMods := by
  obtain ⟨parent, rest, stack, head⟩ := inStep.stack_eq
  have pushed : pushStack (joinPath (path ++ [component])) none invalidRevnum false drive =
      .ok { drive.call (.openDirectory (joinPath (path ++ [component])) parent invalidRevnum drive.next)
        with stack := drive.next :: drive.stack, next := drive.next + 1 } := by
    rw [pushStack, stack]
    rfl
  have accepted : editor.accept
      (.openDirectory (joinPath (path ++ [component])) parent invalidRevnum drive.next) =
        some { editor with
          dirs := (drive.next, joinPath (path ++ [component])) :: editor.dirs
          recent := none
          next := drive.next + 1 } := by
    rw [Editor.accept, Editor.enterDir, if_pos ⟨isParent_of_head head names, inStep.next.symm⟩]
  refine ⟨_, { editor with
    dirs := (drive.next, joinPath (path ++ [component])) :: editor.dirs
    recent := none
    next := drive.next + 1 }, parent, pushed, ?_, rfl, rfl⟩
  exact {
    accepted := by
      rw [Drive.call, Editor.run_append, inStep.accepted, Option.bind_some, Editor.run_cons, accepted]
      rfl
    stack := by rw [List.map_cons, inStep.stack]
    isOpen := .inside component drive.next inStep.isOpen
    next := rfl
    files := inStep.files
    older := fun baton member => by
      have before := inStep.older baton member
      rw [inStep.next] at before
      exact Nat.lt_succ_of_lt before }

/-- Opening the directories of a path one after the other. -/
theorem pushAll_inStep (more : List Bytes) :
    ∀ {path : List Bytes} {editor : Editor} {drive : Drive}, InStep path editor drive →
      (∀ name ∈ path ++ more, IsComponent name) → ∃ drive' editor', ∃ opened : List (Bytes × Baton × Baton),
        ((stepsBelow path more).map joinPath).foldlM
          (fun drive relUrl => pushStack relUrl none invalidRevnum false drive) drive = .ok drive' ∧
        InStep (path ++ more) editor' drive' ∧
        drive'.calls = drive.calls ++
          opened.map (fun dir => .openDirectory dir.1 dir.2.1 invalidRevnum dir.2.2) ∧
        opened.map Prod.fst = (stepsBelow path more).map joinPath ∧
        drive'.fileMods = drive.fileMods := by
  induction more with
  | nil =>
      intro path editor drive inStep _
      refine ⟨drive, editor, [], rfl, ?_, ?_, rfl, rfl⟩
      · rw [List.append_nil]
        exact inStep
      · rw [List.map_nil, List.append_nil]
  | cons component more ih =>
      intro path editor drive inStep names
      rw [List.append_cons] at names ⊢
      obtain ⟨drive₁, editor₁, parent, pushed, inStep₁, calls₁, files₁⟩ := pushStack_inStep inStep
        fun name member => names name (List.mem_append_left _ member)
      obtain ⟨drive₂, editor₂, opened, rest, inStep₂, calls₂, paths₂, files₂⟩ := ih inStep₁ names
      refine ⟨drive₂, editor₂, (joinPath (path ++ [component]), parent, drive.next) :: opened, ?_,
        inStep₂, ?_, ?_, files₂.trans files₁⟩
      · rw [stepsBelow, List.map_cons, List.foldlM_cons, pushed]
        exact rest
      · rw [calls₂, calls₁, List.map_cons, List.append_assoc]
        rfl
      · rw [stepsBelow, List.map_cons, List.map_cons, paths₂]

end Steps

section Items

/-- A directory that is there after the commit is entered. -/
def enters (item : CommitItem) : Bool :=
  item.kind = .dir && (!item.stateFlags.delete || item.stateFlags.add)

theorem nextLastUrl_eq (item : CommitItem) :
    nextLastUrl item = if enters item then item.url else removeComponent item.url := by
  simp only [nextLastUrl, enters, Bool.and_eq_true, Bool.or_eq_true, Bool.not_eq_true',
    decide_eq_true_eq]

/-- A directory has a baton of its own if and only if it is there after the commit. -/
theorem Harvested.enters_eq {item : CommitItem} (harvested : Harvested item) (isDir : item.kind = .dir) :
    enters item = (item.stateFlags.add || item.stateFlags.propMods) := by
  obtain ⟨input, kind, -, flags, something⟩ := harvested
  rw [isDir] at kind
  rw [flags] at something
  rw [enters, isDir, flags]
  simp only [harvestFlags, noStateFlags, kind] at something ⊢
  grind

/-- A file has a baton of its own if it is more than deleted. -/
def needsBaton (item : CommitItem) : Bool :=
  if item.kind = .file then
    item.stateFlags.add || item.stateFlags.propMods || item.stateFlags.textMods
  else item.stateFlags.add || item.stateFlags.propMods

def textMod (item : CommitItem) (baton : Baton) : List (CommitItem × Baton) :=
  if item.kind = .file ∧ item.stateFlags.textMods then [(item, baton)] else []

/-- What an item adds to a drive. -/
def afterItem (item : CommitItem) (parent : Baton) (drive : Drive) : Drive where
  stack := if item.kind ≠ .file ∧ needsBaton item then drive.next :: drive.stack else drive.stack
  next := if needsBaton item then drive.next + 1 else drive.next
  calls := drive.calls ++ itemCalls item parent drive.next
  fileMods := drive.fileMods ++ textMod item drive.next

theorem doFileCommit_eq {item : CommitItem} (isFile : item.kind = .file) (parent : Baton) (drive : Drive) :
    doFileCommit item.url item parent (if item.stateFlags.delete then
      drive.call (.deleteEntry item.url item.revision parent) else drive) =
        afterItem item parent drive := by
  cases deleted : item.stateFlags.delete <;> cases added : item.stateFlags.add <;>
    cases props : item.stateFlags.propMods <;> cases texts : item.stateFlags.textMods <;>
    simp [doFileCommit, afterItem, itemCalls, entryCalls, needsBaton, textMod, openFileIfNeeded,
      Drive.call, isFile, deleted, added, props, texts]

theorem doDirCommit_eq {item : CommitItem} (isDir : item.kind = .dir) {parent : Baton} {drive : Drive}
    {rest : List Baton} (stack : drive.stack = parent :: rest) :
    doDirCommit item.url item (if item.stateFlags.delete then
      drive.call (.deleteEntry item.url item.revision parent) else drive) =
        .ok (afterItem item parent drive) := by
  obtain ⟨batons, next, calls, fileMods⟩ := drive
  subst stack
  cases deleted : item.stateFlags.delete <;> cases added : item.stateFlags.add <;>
    cases props : item.stateFlags.propMods <;>
    simp [doDirCommit, pushStack, afterItem, itemCalls, entryCalls, needsBaton, textMod, Drive.call,
      isDir, deleted, added, props, bind, Except.bind, pure, Except.pure]

theorem doItemCommit_eq {item : CommitItem} (harvested : Harvested item) {parent : Baton} {drive : Drive}
    {rest : List Baton} (stack : drive.stack = parent :: rest) :
    doItemCommit item.url item drive = .ok (afterItem item parent drive) := by
  obtain ⟨-, -, isFile | isDir, -⟩ := harvested
  · rw [doItemCommit, stack]
    simp only [isFile, if_true]
    rw [doFileCommit_eq isFile parent drive]
  · rw [doItemCommit, stack]
    simp only [isDir, reduceCtorEq, if_false]
    rw [doDirCommit_eq isDir stack]

/-- The calls for a file are accepted. -/
theorem Editor.run_itemCalls_file {item : CommitItem} (isFile : item.kind = .file) {editor : Editor}
    {parent : Baton} (isParent : editor.IsParent parent item.url)
    (older : ∀ baton ∈ editor.files, baton < editor.next) :
    ∃ recent, editor.run (itemCalls item parent editor.next) =
      some { editor with
        files := editor.files ++ (textMod item editor.next).map Prod.snd
        recent := recent
        next := if needsBaton item then editor.next + 1 else editor.next } := by
  have erased : (editor.files ++ [editor.next]).erase editor.next = editor.files := by
    have absent : editor.next ∉ editor.files := fun member => Nat.lt_irrefl _ (older _ member)
    rw [List.erase_append_right _ absent, List.erase_cons_head, List.append_nil]
  have stays : ∀ recent, Editor.IsParent { editor with recent := recent } parent item.url :=
    fun _ => isParent
  cases deleted : item.stateFlags.delete <;> cases added : item.stateFlags.add <;>
    cases props : item.stateFlags.propMods <;> cases texts : item.stateFlags.textMods <;>
    simp [itemCalls, entryCalls, needsBaton, textMod, Editor.run_cons, Editor.run_nil, Editor.accept,
      Editor.enterFile, Editor.TakesProps, isFile, deleted, added, props, texts, isParent, stays, erased]
  exact ⟨editor.recent, rfl⟩

/-- The calls for a directory are accepted. -/
theorem Editor.run_itemCalls_dir {item : CommitItem} (isDir : item.kind = .dir) {editor : Editor}
    {parent : Baton} (isParent : editor.IsParent parent item.url) :
    ∃ recent, editor.run (itemCalls item parent editor.next) =
      some { editor with
        dirs := if needsBaton item then (editor.next, item.url) :: editor.dirs else editor.dirs
        recent := recent
        next := if needsBaton item then editor.next + 1 else editor.next } := by
  have stays : ∀ recent, Editor.IsParent { editor with recent := recent } parent item.url :=
    fun _ => isParent
  cases deleted : item.stateFlags.delete <;> cases added : item.stateFlags.add <;>
    cases props : item.stateFlags.propMods <;>
    simp [itemCalls, entryCalls, needsBaton, Editor.run_cons, Editor.run_nil, Editor.accept,
      Editor.enterDir, Editor.TakesProps, isDir, deleted, added, props, isParent, stays]
  exact ⟨editor.recent, rfl⟩

/-- The visit that an item makes. -/
def visit (item : CommitItem) (path : List Bytes) : Visit Bytes := ⟨path, enters item⟩

theorem needsBaton_dir {item : CommitItem} (harvested : Harvested item) (isDir : item.kind = .dir) :
    needsBaton item = enters item := by
  rw [harvested.enters_eq isDir, needsBaton, if_neg (by simp [isDir])]

theorem afterItem_inStep_file {path : List Bytes} {item : CommitItem} {editor : Editor} {drive : Drive}
    {parent : Baton} (inStep : InStep path editor drive) (isFile : item.kind = .file)
    (isParent : editor.IsParent parent item.url) :
    ∃ editor', InStep path editor' (afterItem item parent drive) := by
  obtain ⟨recent, accepted⟩ := Editor.run_itemCalls_file isFile isParent inStep.older
  refine ⟨{ editor with
    files := editor.files ++ (textMod item editor.next).map Prod.snd
    recent := recent
    next := if needsBaton item then editor.next + 1 else editor.next }, ?_⟩
  exact {
    accepted := by
      rw [afterItem, Editor.run_append, inStep.accepted, Option.bind_some, ← inStep.next]
      exact accepted
    stack := by simp [afterItem, isFile, inStep.stack]
    isOpen := inStep.isOpen
    next := by simp [afterItem, inStep.next]
    files := by simp [afterItem, inStep.files, inStep.next]
    older := by
      intro baton member
      rcases List.mem_append.mp member with old | new
      · have before := inStep.older baton old
        show baton < if needsBaton item then editor.next + 1 else editor.next
        split
        · exact Nat.lt_succ_of_lt before
        · exact before
      · have texts : item.stateFlags.textMods = true := by
          by_contra without
          simp [textMod, without] at new
        have same : baton = editor.next := by simpa [textMod, isFile, texts] using new
        simp [needsBaton, isFile, texts, same] }

theorem afterItem_inStep_dir {path : List Bytes} {component : Bytes} {item : CommitItem} {editor : Editor}
    {drive : Drive} {parent : Baton} (inStep : InStep path editor drive) (isDir : item.kind = .dir)
    (harvested : Harvested item) (url : item.url = joinPath (path ++ [component]))
    (isParent : editor.IsParent parent item.url) :
    ∃ editor', InStep (visit item (path ++ [component])).last editor' (afterItem item parent drive) := by
  obtain ⟨recent, accepted⟩ := Editor.run_itemCalls_dir isDir isParent
  refine ⟨{ editor with
    dirs := if needsBaton item then (editor.next, item.url) :: editor.dirs else editor.dirs
    recent := recent
    next := if needsBaton item then editor.next + 1 else editor.next }, ?_⟩
  exact {
    accepted := by
      rw [afterItem, Editor.run_append, inStep.accepted, Option.bind_some, ← inStep.next]
      exact accepted
    stack := by
      simp only [afterItem, isDir, ← inStep.next, ← inStep.stack]
      split <;> simp_all
    isOpen := by
      simp only [needsBaton_dir harvested isDir, visit, Visit.last, List.dropLast_concat]
      split
      · rw [url]
        exact .inside component editor.next inStep.isOpen
      · exact inStep.isOpen
    next := by simp [afterItem, inStep.next]
    files := by simp [afterItem, inStep.files, textMod, isDir]
    older := by
      intro baton member
      have before := inStep.older baton member
      show baton < if needsBaton item then editor.next + 1 else editor.next
      split
      · exact Nat.lt_succ_of_lt before
      · exact before }

/-- Handling one item right below the innermost directory. -/
theorem doItemCommit_inStep {path : List Bytes} {component : Bytes} {item : CommitItem} {editor : Editor}
    {drive : Drive} (inStep : InStep path editor drive) (harvested : Harvested item)
    (url : item.url = joinPath (path ++ [component]))
    (names : ∀ name ∈ path ++ [component], IsComponent name) :
    ∃ drive' editor' parent, doItemCommit item.url item drive = .ok drive' ∧
      InStep (visit item (path ++ [component])).last editor' drive' ∧
      drive'.calls = drive.calls ++ itemCalls item parent drive.next ∧
      drive'.fileMods = drive.fileMods ++ textMod item drive.next := by
  obtain ⟨parent, rest, stack, head⟩ := inStep.stack_eq
  have isParent : editor.IsParent parent item.url := by
    rw [url]
    exact isParent_of_head head names
  have kinds := harvested
  obtain ⟨-, -, isFile | isDir, -⟩ := kinds
  · obtain ⟨editor', after⟩ := afterItem_inStep_file inStep isFile isParent
    have stays : (visit item (path ++ [component])).last = path := by
      simp [visit, Visit.last, enters, isFile]
    rw [stays]
    exact ⟨_, editor', parent, doItemCommit_eq harvested stack, after, rfl, rfl⟩
  · obtain ⟨editor', after⟩ := afterItem_inStep_dir inStep isDir harvested url isParent
    exact ⟨_, editor', parent, doItemCommit_eq harvested stack, after, rfl, rfl⟩

end Items

section Loop

/-- Closing the directories that do not lie on the way to the next item. -/
theorem leave_inStep {last path : List Bytes} {url : Bytes} {editor : Editor} {drive : Drive}
    (inStep : InStep last editor drive) (names : ∀ name ∈ last, IsComponent name)
    (itemNames : ∀ name ∈ path, IsComponent name) (itemUrl : url = joinPath path) :
    ∃ drive' editor', ∃ closed : List Baton,
      (if ((getLongestAncestor (joinPath last) url).getD []).length < (joinPath last).length then
        popTimes (countComponents ((joinPath last).drop
          (if ((getLongestAncestor (joinPath last) url).getD []).length = 0 then 0
            else ((getLongestAncestor (joinPath last) url).getD []).length + 1))) drive
      else pure drive) = Except.ok drive' ∧
      InStep (sharedPath last path) editor' drive' ∧
      drive'.calls = drive.calls ++ closed.map .closeDirectory ∧ drive'.fileMods = drive.fileMods := by
  obtain ⟨dropped, split⟩ := sharedPath_prefix_left last path
  have droppedNames : ∀ name ∈ dropped, IsComponent name :=
    fun name member => names name (split ▸ List.mem_append_right _ member)
  rw [itemUrl, getLongestAncestor_joinPath last path names itemNames]
  by_cases nothing : dropped = []
  · rw [nothing, List.append_nil] at split
    rw [split, if_neg (Nat.lt_irrefl _)]
    exact ⟨drive, editor, [], rfl, inStep, by simp, rfl⟩
  · have commonNames : ∀ name ∈ sharedPath last path, IsComponent name :=
      fun name member => names name (sharedPath_mem member)
    have shorter : (joinPath (sharedPath last path)).length < (joinPath last).length := by
      have lengths := joinPath_length_lt (split.symm ▸ names) nothing
      rw [split] at lengths
      exact lengths
    have counted := countComponents_joinPath droppedNames nothing
    have suffix := drop_joinPath (sharedPath last path) nothing commonNames
    rw [split] at suffix
    rw [if_pos shorter, suffix, counted]
    rw [← split] at inStep
    exact popTimes_inStep inStep

/-- Opening the directories on the way to the next item. -/
theorem openParents_inStep {common more : List Bytes} {editor : Editor} {drive : Drive}
    (inStep : InStep common editor drive) (names : ∀ name ∈ common ++ more, IsComponent name) :
    ∃ drive' editor', ∃ opened : List (Bytes × Baton × Baton),
      openParents (joinPath (common ++ more)) (joinPath common) drive = .ok drive' ∧
      InStep (common ++ more) editor' drive' ∧
      drive'.calls = drive.calls ++
        opened.map (fun dir => .openDirectory dir.1 dir.2.1 invalidRevnum dir.2.2) ∧
      opened.map Prod.fst = (prefixesBeyond common.length (common ++ more)).map joinPath ∧
      drive'.fileMods = drive.fileMods := by
  rw [prefixesBeyond_append, openParents]
  by_cases nothing : more = []
  · subst nothing
    rw [List.append_nil, if_neg (Nat.lt_irrefl _)]
    exact ⟨drive, editor, [], rfl, inStep, by simp, rfl, rfl⟩
  · rw [if_pos (joinPath_length_lt names nothing),
      pieces_joinPath common nothing fun name member => names name (List.mem_append_right _ member)]
    exact pushAll_inStep more inStep names

/-- One round of the loop: the drive goes on by the calls for one item. -/
theorem commitStep_inStep {last path : List Bytes} {item : CommitItem} {editor : Editor} {drive : Drive}
    (inStep : InStep last editor drive) (names : ∀ name ∈ last, IsComponent name)
    (harvested : Harvested item) (itemNames : ∀ name ∈ path, IsComponent name)
    (url : item.url = joinPath path) (outside : ¬ path <+: last) :
    ∃ drive' editor', ∃ segment : Segment, commitStep (some (joinPath last)) item drive = .ok drive' ∧
      InStep (visit item path).last editor' drive' ∧ drive'.calls = drive.calls ++ segment.calls ∧
      segment.item = item ∧
      segment.opened.map Prod.fst =
        (prefixesBeyond (sharedPath last path).length path.dropLast).map joinPath ∧
      drive'.fileMods = drive.fileMods ++ textMod item segment.baton := by
  obtain ⟨before, component, rfl⟩ : ∃ before component, path = before ++ [component] := by
    rcases List.eq_nil_or_concat path with rfl | ⟨before, component, rfl⟩
    · exact absurd List.nil_prefix outside
    · exact ⟨before, component, List.concat_eq_append⟩
  have proper : sharedPath last (before ++ [component]) <+: before := by
    have differ : sharedPath last (before ++ [component]) ≠ before ++ [component] := by
      intro same
      exact outside (same ▸ sharedPath_prefix_left last (before ++ [component]))
    have inside := (prefix_dropLast_iff.mpr ⟨sharedPath_prefix_right last _, differ⟩).1
    rw [List.dropLast_concat] at inside
    exact inside
  obtain ⟨more, split⟩ := proper
  have beforeNames : ∀ name ∈ sharedPath last (before ++ [component]) ++ more, IsComponent name := by
    intro name member
    rw [split] at member
    exact itemNames name (List.mem_append_left _ member)
  obtain ⟨drive₁, editor₁, closed, left, inStep₁, calls₁, files₁⟩ :=
    leave_inStep inStep names itemNames url
  obtain ⟨drive₂, editor₂, opened, entered, inStep₂, calls₂, paths₂, files₂⟩ :=
    openParents_inStep inStep₁ beforeNames
  rw [split] at entered inStep₂ paths₂
  obtain ⟨drive₃, editor₃, parent, handled, inStep₃, calls₃, files₃⟩ :=
    doItemCommit_inStep inStep₂ harvested url itemNames
  refine ⟨drive₃, editor₃, ⟨item, closed, opened, parent, drive₂.next⟩, ?_, inStep₃, ?_, rfl, ?_, ?_⟩
  · have ancestor := getLongestAncestor_joinPath last (before ++ [component]) names itemNames
    have directory := removeComponent_joinPath (before ++ [component]) itemNames
    rw [List.dropLast_concat] at directory
    rw [← url] at ancestor directory
    simp only [commitStep, Option.bind_some]
    rw [ancestor] at left ⊢
    split at left
    · next shorter =>
        rw [if_pos shorter, left]
        simp only [bind, Except.bind, directory, entered, handled]
    · next whole =>
        rw [if_neg whole, left]
        simp only [bind, Except.bind, directory, entered, handled]
  · rw [calls₃, calls₂, calls₁, Segment.calls, List.append_assoc, List.append_assoc,
      List.append_assoc]
  · rw [List.dropLast_concat]
    exact paths₂
  · rw [files₃, files₂, files₁]

/-- Of the calls for an item, only the one that enters it opens a directory. -/
theorem openedPath_entryCalls (item : CommitItem) (parent baton : Baton) :
    (itemCalls item parent baton).filterMap openedPath =
      (entryCalls item parent baton).filterMap openedPath := by
  have deletion : (if item.stateFlags.delete then [EditorCall.deleteEntry item.url item.revision parent]
      else []).filterMap openedPath = [] := by
    split <;> rfl
  have props : (if item.stateFlags.propMods then [EditorCall.transmitPropDeltas item.path baton]
      else []).filterMap openedPath = [] := by
    split <;> rfl
  have closing : (if item.kind = .file ∧ (item.stateFlags.add || item.stateFlags.propMods) ∧
      item.stateFlags.textMods = false then [EditorCall.closeFile baton] else []).filterMap openedPath =
        [] := by
    split <;> rfl
  rw [itemCalls, List.filterMap_append, List.filterMap_append, List.filterMap_append, deletion, props,
    closing, List.nil_append, List.append_nil, List.append_nil]

/-- A directory that is handled is opened if it is entered. -/
theorem openedPath_itemCalls {item : CommitItem} (harvested : Harvested item) (parent baton : Baton) :
    (itemCalls item parent baton).filterMap openedPath = if enters item then [item.url] else [] := by
  have kinds := harvested
  obtain ⟨-, -, isFile | isDir, -⟩ := kinds
  · have stays : enters item = false := by
      rw [enters, isFile]
      rfl
    rw [openedPath_entryCalls, stays, entryCalls, if_pos isFile]
    split
    · rfl
    · split <;> rfl
  · have notFile : item.kind ≠ .file := by
      rw [isDir]
      decide
    rw [openedPath_entryCalls, harvested.enters_eq isDir, entryCalls, if_neg notFile]
    cases item.stateFlags.add <;> cases item.stateFlags.propMods <;> rfl

/-- The directories that are opened on the way to an item and by handling it. -/
theorem openedPath_segment {last path : List Bytes} {segment : Segment} (harvested : Harvested segment.item)
    (url : segment.item.url = joinPath path) (paths : segment.opened.map Prod.fst =
      (prefixesBeyond (sharedPath last path).length path.dropLast).map joinPath) :
    segment.calls.filterMap openedPath = (opens last (visit segment.item path)).map joinPath := by
  have closes : ∀ closed : List Baton,
      (closed.map EditorCall.closeDirectory).filterMap openedPath = [] := by
    intro closed
    induction closed with
    | nil => rfl
    | cons baton closed ih => rw [List.map_cons, List.filterMap_cons, ih]; rfl
  have enteredPaths : ∀ opened : List (Bytes × Baton × Baton),
      (opened.map fun dir => EditorCall.openDirectory dir.1 dir.2.1 invalidRevnum dir.2.2).filterMap
        openedPath = opened.map Prod.fst := by
    intro opened
    induction opened with
    | nil => rfl
    | cons dir opened ih => rw [List.map_cons, List.filterMap_cons, ih]; rfl
  rw [Segment.calls, List.filterMap_append, List.filterMap_append, closes, enteredPaths,
    openedPath_itemCalls harvested, paths, opens, List.map_append, List.nil_append, url]
  congr 1
  by_cases entered : enters segment.item = true
  · rw [if_pos entered, if_pos (show (visit segment.item path).enters = true from entered)]
    rfl
  · rw [if_neg entered, if_neg (show ¬ (visit segment.item path).enters = true from entered)]
    rfl

theorem joinPath_last {item : CommitItem} {path : List Bytes} (names : ∀ name ∈ path, IsComponent name)
    (url : item.url = joinPath path) : nextLastUrl item = joinPath (visit item path).last := by
  rw [nextLastUrl_eq, url, removeComponent_joinPath path names, visit, Visit.last]
  split <;> rfl

variable (components : CommitItem → List Bytes)

/-- An item whose url is made of its components. -/
structure Placed (item : CommitItem) : Prop where
  harvested : Harvested item
  names : ∀ name ∈ components item, IsComponent name
  url : item.url = joinPath (components item)

def visitOf (item : CommitItem) : Visit Bytes := visit item (components item)

/-- The loop handles all the items and opens the directories of a walk along them. -/
theorem commitLoop_inStep (items : List CommitItem) :
    ∀ {last : List Bytes} {editor : Editor} {drive : Drive}, InStep last editor drive →
      (∀ name ∈ last, IsComponent name) → (∀ item ∈ items, Placed components item) →
      (∀ item ∈ items, ¬ components item <+: last) →
      items.Pairwise (fun earlier later => ¬ components later <+: components earlier) →
      ∃ drive' editor' path, ∃ segments : List Segment,
        commitLoop (some (joinPath last)) items drive = .ok drive' ∧ InStep path editor' drive' ∧
        drive'.calls = drive.calls ++ segments.flatMap Segment.calls ∧
        segments.map Segment.item = items ∧ (∀ segment ∈ segments, segment.OnTheWay) ∧
        (segments.flatMap Segment.calls).filterMap openedPath =
          (walk last (items.map (visitOf components))).map joinPath ∧
        drive'.fileMods = drive.fileMods ++
          (segments.filter Segment.hasText).map fun segment => (segment.item, segment.baton) := by
  induction items with
  | nil =>
      intro last editor drive inStep _ _ _ _
      exact ⟨drive, editor, last, [], rfl, inStep, by simp, rfl, by simp, rfl, by simp⟩
  | cons item items ih =>
      intro last editor drive inStep names placed outside order
      obtain ⟨first, rest⟩ := List.pairwise_cons.mp order
      have place := placed item List.mem_cons_self
      obtain ⟨drive₁, editor₁, segment, step, inStep₁, calls₁, handled, paths, files₁⟩ :=
        commitStep_inStep inStep names place.harvested place.names place.url
          (outside item List.mem_cons_self)
      have lastNames : ∀ name ∈ (visitOf components item).last, IsComponent name := by
        intro name member
        have inside := prefix_last (List.prefix_refl (visitOf components item).last)
        exact place.names name (inside.subset member)
      have away : ∀ other ∈ items, ¬ components other <+: (visitOf components item).last :=
        fun other member inside => first other member (prefix_last inside)
      obtain ⟨drive₂, editor₂, path, segments, loop, inStep₂, calls₂, all, ways, opened, files₂⟩ :=
        ih inStep₁ lastNames (fun other member => placed other (List.mem_cons_of_mem _ member)) away rest
      have way : segment.OnTheWay :=
        ⟨components item, _, place.names, by rw [handled]; exact place.url, paths⟩
      refine ⟨drive₂, editor₂, path, segment :: segments, ?_, inStep₂, ?_, ?_, ?_, ?_, ?_⟩
      · rw [commitLoop, step]
        simp only [bind, Except.bind]
        rw [joinPath_last place.names place.url]
        exact loop
      · rw [calls₂, calls₁, List.flatMap_cons, List.append_assoc]
      · rw [List.map_cons, handled, all]
      · intro other member
        rcases List.mem_cons.mp member with rfl | later
        · exact way
        · exact ways other later
      · have here := openedPath_segment (handled ▸ place.harvested) (handled ▸ place.url) paths
        rw [List.flatMap_cons, List.filterMap_append, opened, here, List.map_cons, walk,
          List.map_append, handled]
        rfl
      · rw [files₂, files₁, List.filter_cons, Segment.hasText, handled, textMod, List.append_assoc]
        by_cases texts : item.kind = .file ∧ item.stateFlags.textMods = true
        · rw [if_pos texts, if_pos (by simp [texts]), List.map_cons, handled]
          rfl
        · rw [if_neg texts, if_neg (by simpa using texts), List.nil_append]

/-- Before the first item nothing but the root is open. -/
theorem commitLoop_none (items : List CommitItem) (drive : Drive) :
    commitLoop none items drive = commitLoop (some []) items drive := by
  cases items with
  | nil => rfl
  | cons item items =>
      have first : commitStep none item drive = commitStep (some []) item drive := by
        simp [commitStep, getLongestAncestor]
      rw [commitLoop, commitLoop, first]

/-- The texts are transmitted for the files that are still open. -/
theorem Editor.run_texts (segments : List Segment) :
    ∀ editor : Editor, editor.dirs = [] → editor.files = segments.map Segment.baton →
      ∃ recent, editor.run (segments.map Segment.textCall) =
        some { editor with files := [], recent := recent } := by
  induction segments with
  | nil =>
      intro editor _ files
      refine ⟨editor.recent, ?_⟩
      rw [List.map_nil] at files
      rw [List.map_nil, Editor.run_nil, ← files]
  | cons segment segments ih =>
      intro editor closed files
      rw [List.map_cons] at files
      obtain ⟨recent, rest⟩ := ih { editor with files := segments.map Segment.baton, recent := none }
        closed rfl
      refine ⟨recent, ?_⟩
      have first : editor.accept segment.textCall =
          some { editor with files := segments.map Segment.baton, recent := none } := by
        rw [Segment.textCall, Editor.accept, if_pos ⟨closed, by rw [files]; exact List.mem_cons_self⟩,
          files, List.erase_cons_head]
      rw [List.map_cons, Editor.run_cons, first]
      exact rest

variable {components}

/-- The whole drive keeps all the rules, except that it may open a directory more than once. -/
theorem doCommit_spec {items : List CommitItem} (placed : ∀ item ∈ items, Placed components item)
    (inside : ∀ item ∈ items, components item ≠ [])
    (order : items.Pairwise fun earlier later => ¬ components later <+: components earlier) :
    ∃ calls segments closing final, doCommit items = .ok calls ∧
      HandlesOnce items calls segments closing ∧ Editor.start.run calls = some final ∧
      calls.filterMap openedPath = (walk [] (items.map (visitOf components))).map joinPath := by
  obtain ⟨drive, editor, path, segments, loop, inStep, calls, all, ways, opened, files⟩ :=
    commitLoop_inStep components items InStep.init (fun name member => by cases member) placed
      (fun item member isPrefix => inside item member (List.prefix_nil.mp isPrefix)) order
  have batons : editor.files = (segments.filter Segment.hasText).map Segment.baton := by
    rw [inStep.files, files, initStack, List.nil_append, List.map_map]
    rfl
  obtain ⟨recent, closes⟩ := Editor.run_close editor.dirs.length editor le_rfl
  rw [inStep.stack, List.drop_length] at closes
  have stackLength : editor.dirs.length = drive.stack.length := by
    rw [← inStep.stack, List.length_map]
  rw [stackLength, List.take_length] at closes
  obtain ⟨recent', texts⟩ := Editor.run_texts (segments.filter Segment.hasText)
    { editor with dirs := [], recent := recent } rfl batons
  have popped := popTimes_eq drive.stack.length drive le_rfl
  rw [List.take_length] at popped
  refine ⟨drive.calls ++ drive.stack.map .closeDirectory ++
    (segments.filter Segment.hasText).map Segment.textCall ++ [.closeEdit], segments, drive.stack,
    { editor with dirs := [], files := [], recent := recent' }, ?_, ?_, ?_, ?_⟩
  · rw [doCommit, commitLoop_none]
    rw [show (some [] : Option Bytes) = some (joinPath []) from rfl, loop]
    simp only [bind, Except.bind]
    rw [popped]
    simp only [pure, Except.pure]
    rw [files, initStack, List.nil_append, List.map_map]
    rfl
  · exact ⟨all, ways, by rw [calls]; rfl⟩
  · rw [Editor.run_append, Editor.run_append, Editor.run_append, inStep.accepted, Option.bind_some,
      closes, Option.bind_some, texts, Option.bind_some, Editor.run_cons]
    rfl
  · have closing : (drive.stack.map EditorCall.closeDirectory).filterMap openedPath = [] := by
      simp [List.filterMap_map, openedPath, Function.comp_def]
    have texting : ((segments.filter Segment.hasText).map Segment.textCall).filterMap openedPath = [] := by
      simp [List.filterMap_map, openedPath, Segment.textCall, Function.comp_def]
    rw [List.filterMap_append, List.filterMap_append, List.filterMap_append, calls, List.filterMap_append,
      opened, closing, texting, List.append_nil, List.append_nil]
    exact List.append_nil _

end Loop

end Subversion.Client
