/-
This file shows that the editor calls for the difference of two trees turn the one into the other.
-/

import Subversion.Repos.Replay

namespace Subversion.Repos

open Delta Fs Subr Lib Framing Svndiff

section Identity

/-- Every branch has revisions from one on. -/
def PositivePairs : NodeId → Prop
  | [] => True
  | [_] => False
  | _ :: revision :: rest => 0 < revision ∧ PositivePairs rest

/-- The id of a node revision, possibly on a branch. -/
def ProperId : NodeId → Prop
  | _ :: _ :: rest => PositivePairs rest
  | _ => False

theorem PositivePairs.eq_nil {id : NodeId} (positive : PositivePairs id) (zero : distanceFromPrefix id = 0) :
    id = [] := by
  match id, positive with
  | [], _ => rfl
  | _ :: revision :: rest, positive =>
      rw [distanceFromPrefix] at zero
      have counted := positive.1
      omega

theorem PositivePairs.eq_of_distance (first : NodeId) :
    ∀ {second : NodeId}, PositivePairs first → PositivePairs second →
      distanceBehindPrefix first second = 0 → first = second := by
  induction first using PositivePairs.induct with
  | case1 =>
      intro second _ positive zero
      rw [distanceBehindPrefix] at zero
      · exact (positive.eq_nil (by omega)).symm
      · intro _ _ _ _ _ _ same
        cases same
  | case2 value => exact fun positive => absurd positive id
  | case3 number revision rest ih =>
      intro second positive positive' zero
      match second, positive' with
      | [], _ =>
          rw [distanceBehindPrefix] at zero
          · exact positive.eq_nil (by omega)
          · intro _ _ _ _ _ _ _ same
            cases same
      | other :: later :: more, positive' =>
          rw [distanceBehindPrefix] at zero
          have counted := positive.1
          split at zero
          · next same => rw [same.1, same.2, ih positive.2 positive'.2 zero]
          · next differ =>
              split at zero
              · next same =>
                  exfalso
                  apply differ
                  exact ⟨same, by omega⟩
              · rw [distanceFromPrefix] at zero
                omega

/-- Only an id itself is at distance zero. -/
theorem eq_of_idDistance {first second : NodeId} (proper : ProperId first) (proper' : ProperId second)
    (zero : idDistance first second = some 0) : first = second := by
  match first, second, proper, proper' with
  | number :: revision :: rest, other :: later :: more, proper, proper' =>
      rw [idDistance] at zero
      split at zero
      · cases zero
      · next sameHead =>
          have same : number = other := by simpa using sameHead
          have distance := Option.some.inj zero
          rw [distanceBehindPrefix] at distance
          split at distance
          · next equal => rw [equal.1, equal.2, PositivePairs.eq_of_distance rest proper proper' distance]
          · next differ =>
              exfalso
              apply differ
              exact ⟨same, by omega⟩

end Identity

section Setting

/-- What a filesystem guarantees about two of its roots, of revisions or transactions: a name stands once in a directory, the same
id is the same node, and related nodes are of the same kind. -/
structure Context.Sound (c : Context) : Prop where
  rootName : ∀ side, (c.root side).name ≠ .id
  rootIsDir : ∀ side, (c.root side).node.isDir = true
  nodup : ∀ side way node, (c.root side).node.follow way = some node → (node.entries.map Prod.fst).Nodup
  names : ∀ side way node, (c.root side).node.follow way = some node →
    ∀ name ∈ node.entries.map Prod.fst, isSinglePathComponent name = true
  properId : ∀ side way node, (c.root side).node.follow way = some node → ProperId node.id
  sameNode : ∀ way₁ way₂ node₁ node₂, c.source.node.follow way₁ = some node₁ →
    c.target.node.follow way₂ = some node₂ → node₁.id = node₂.id → node₁ = node₂
  sameKind : ∀ way₁ way₂ node₁ node₂, c.source.node.follow way₁ = some node₁ →
    c.target.node.follow way₂ = some node₂ → idDistance node₁.id node₂.id ≠ none →
    node₁.isDir = node₂.isDir

variable {c : Context}

theorem isComponent_of_single {name : Bytes} (single : isSinglePathComponent name = true) :
    IsComponent name := by
  simp only [isSinglePathComponent, Bool.and_eq_true, decide_eq_true_eq, Bool.not_eq_true',
    List.contains_eq_mem, decide_eq_false_iff_not] at single
  exact ⟨single.1.1.1, single.2⟩

theorem Context.opened_child {side : Side} {path name : Bytes} {node : Node} (sound : c.Sound)
    (opened : c.opened side path = .ok node) {child : Node} (found : node.child name = some child) :
    c.opened side (addComponent path name) = .ok child := by
  have member : name ∈ node.entries.map Prod.fst := by
    by_contra absent
    rw [Node.child, lookup_eq_none_iff.mpr absent] at found
    cases found
  have valid := isComponent_of_single (sound.names side _ node (follow_components opened) name member)
  have result := openPath_addComponent opened (Node.isDir_of_child found) valid
  rw [found] at result
  exact result

/-- The two paths lead to the same nodes under both roots, or there is nothing in the source. -/
inductive Start (c : Context) : Option Bytes → Bytes → Option Node → Node → Prop where
  | empty {target : Bytes} {t : Node} (opened : c.opened .target target = .ok t) : Start c none target none t
  | paired {source target : Bytes} {s t : Node} (sourceInSource : c.opened .source source = .ok s)
      (sourceInTarget : c.opened .target source = .ok t)
      (targetInSource : c.opened .source target = .ok s)
      (targetInTarget : c.opened .target target = .ok t) : Start c (some source) target (some s) t

theorem Start.target {source : Option Bytes} {target : Bytes} {s : Option Node} {t : Node}
    (start : Start c source target s t) : c.opened .target target = .ok t := by
  cases start with
  | empty opened => exact opened
  | paired _ _ _ targetInTarget => exact targetInTarget

def startProps (store : Store) : Option Node → Bytes → Option Bytes
  | none => fun _ => none
  | some node => (store.props node.propKey).value

def startEntries (store : Store) : Option Node → Bytes → Option Tree
  | none => fun _ => none
  | some node => node.look store

/-- Only the target is looked at, and only from a directory down. -/
def TargetOnly (base : List Bytes) (steps : List Step) : Prop :=
  ∀ side path, .access side path ∈ steps → side = .target ∧ base <+: components path

theorem TargetOnly.append {base : List Bytes} {steps more : List Step} (first : TargetOnly base steps)
    (second : TargetOnly base more) : TargetOnly base (steps ++ more) := by
  intro side path member
  rcases List.mem_append.mp member with early | late
  · exact first side path early
  · exact second side path late

theorem TargetOnly.calls (base : List Bytes) {steps : List Step}
    (calls : ∀ step ∈ steps, ∃ call, step = .call call) : TargetOnly base steps := by
  intro side path member
  obtain ⟨call, same⟩ := calls _ member
  cases same

theorem TargetOnly.cons_call {base : List Bytes} {steps : List Step} (call : EditorCall)
    (only : TargetOnly base steps) : TargetOnly base (.call call :: steps) := by
  intro side path member
  rcases List.mem_cons.mp member with same | later
  · cases same
  · exact only side path later

theorem TargetOnly.cons_access {base : List Bytes} {steps : List Step} {path : Bytes}
    (below : base <+: components path) (only : TargetOnly base steps) :
    TargetOnly base (.access .target path :: steps) := by
  intro side other member
  rcases List.mem_cons.mp member with same | later
  · cases same
    exact ⟨rfl, below⟩
  · exact only side other later

theorem TargetOnly.nil (base : List Bytes) : TargetOnly base [] := by
  intro side path member
  cases member

theorem TargetOnly.mono {base longer : List Bytes} {steps : List Step} (below : base <+: longer)
    (only : TargetOnly longer steps) : TargetOnly base steps := by
  intro side path member
  obtain ⟨isTarget, inside⟩ := only side path member
  exact ⟨isTarget, below.trans inside⟩

end Setting

section Files

variable {c : Context} {anchor : Tree}

theorem changeTargetProps_calls (change : Bytes → Option Bytes → EditorCall)
    (targetProps : List (Bytes × Bytes)) :
    ∀ sourceProps, ∀ step ∈ (changeTargetProps change targetProps sourceProps).1,
      ∃ call, step = .call call := by
  induction targetProps with
  | nil => exact fun _ _ member => by cases member
  | cons prop rest ih =>
      intro sourceProps step member
      rw [changeTargetProps] at member
      split at member
      · dsimp only at member
        split at member
        · exact ih _ step member
        · rcases List.mem_cons.mp member with same | later
          · exact ⟨_, same⟩
          · exact ih _ step later
      · rcases List.mem_cons.mp member with same | later
        · exact ⟨_, same⟩
        · exact ih _ step later

theorem changeProps_calls (c : Context) (source : Option Bytes) (target : Bytes)
    (change : Bytes → Option Bytes → EditorCall) (sourceProps targetProps : List (Bytes × Bytes)) :
    ∀ step ∈ changeProps c source target change sourceProps targetProps, ∃ call, step = .call call := by
  intro step member
  rw [changeProps] at member
  rcases List.mem_append.mp member with early | late
  · exact changeTargetProps_calls change _ sourceProps step early
  · obtain ⟨prop, -, same⟩ := List.mem_map.mp late
    exact ⟨_, same.symm⟩

/-- The properties of a node become those of the target. -/
theorem run_deltaProplists {source : Option Bytes} {target : Bytes} {s : Option Node} {t : Node}
    (start : Start c source target s t) (change : Bytes → Option Bytes → EditorCall) :
    ∃ steps, deltaProplists c source target change = .ok steps ∧
      (∀ anchor place, ChangesProps anchor place change →
        (place (startProps c.store s)).run anchor steps =
          some (place (c.store.props t.propKey).value)) ∧
      (source = none → TargetOnly (components target) steps) := by
  cases start with
  | empty opened =>
      refine ⟨.access .target target :: changeProps c none target change []
        (c.store.props t.propKey).list, ?_, ?_, ?_⟩
      · simp only [deltaProplists, nodeProplist, opened, bind, Except.bind]
        rfl
      · intro anchor place changes
        exact run_changeProps changes c none target ⟨[], List.nodup_nil⟩ (c.store.props t.propKey)
      · intro _
        exact (TargetOnly.calls _ (changeProps_calls c none target change _ _)).cons_access
          (List.prefix_refl _)
  | @paired path _ s _ sourceInSource _ _ targetInTarget =>
      by_cases same : t.propKey = s.propKey
      · refine ⟨[.access .target target, .access .source path], ?_, ?_, ?_⟩
        · simp only [deltaProplists, propsChanged, sourceInSource, targetInTarget, bind, Except.bind, pure,
            Except.pure, same, ne_eq, not_true_eq_false, decide_false, Bool.false_eq_true, if_false]
        · intro anchor place _
          rw [same]
          rfl
        · exact fun empty => by cases empty
      · refine ⟨.access .target target :: .access .source path :: changeProps c (some path) target change
          (c.store.props s.propKey).list (c.store.props t.propKey).list, ?_, ?_, ?_⟩
        · simp only [deltaProplists, propsChanged, nodeProplist, sourceInSource, targetInTarget, bind,
            Except.bind, pure, Except.pure, ne_eq, same, not_false_eq_true, decide_true, if_true]
        · intro anchor place changes
          exact run_changeProps changes c (some path) target (c.store.props s.propKey)
            (c.store.props t.propKey)
        · exact fun empty => by cases empty

/-- The windows that are sent rebuild the new text from the old one. -/
theorem applyWindows_deltaWindows (source : StreamContents) (target : Bytes) :
    ∃ windows, deltaWindows source.bytes target = .ok windows ∧
      applyWindows source.bytes windows = some target := by
  obtain ⟨windows, rebuilds, sends⟩ := txdeltaSendTxstream_windows source.addressable
    target.length (txdelta source.bytes target) 0 le_rfl (txdelta_reading source.bytes target)
    (Nat.zero_le _)
  have collected : ∀ (given sent : List (Option TxdeltaWindow)),
      consumeAll collectWindow sent given = (sent ++ given, none) := by
    intro given
    induction given with
    | nil =>
        intro sent
        rw [consumeAll, List.append_nil]
    | cons window given ih =>
        intro sent
        rw [consumeAll, collectWindow]
        simp only
        rw [ih, List.append_assoc]
        rfl
  refine ⟨windows.map some ++ [none], ?_, ?_⟩
  · rw [deltaWindows, sends collectWindow _ _ (Nat.lt_succ_self _), collected, List.nil_append]
  · obtain ⟨final, applied, written, closed⟩ := applyWindow_rebuilds rebuilds
      (txdeltaApply source.bytes) (txdeltaApply_viewing source.bytes) le_rfl
    rw [applyWindows, applied]
    simp only [closed, if_true, written]
    rfl

theorem run_sendTextDelta (texts : c.textDeltas = true) (baton : Baton) (source : StreamContents)
    (target : Bytes) :
    ∃ steps, sendTextDelta c baton source.bytes target = .ok steps ∧
      (∀ step ∈ steps, ∃ call, step = .call call) ∧
      ∀ anchor dirs next name props,
        Session.run anchor ⟨dirs, some ⟨baton, name, props, source.bytes⟩, next, none⟩ steps =
          some ⟨dirs, some ⟨baton, name, props, target⟩, next, none⟩ := by
  obtain ⟨windows, made, applied⟩ := applyWindows_deltaWindows source target
  refine ⟨[.call (.applyTextdelta baton windows)], ?_, ?_, ?_⟩
  · simp only [sendTextDelta, texts, if_true, made, bind, Except.bind]
    rfl
  · intro step member
    exact ⟨_, List.mem_singleton.mp member⟩
  · intro anchor dirs next name props
    simp [Session.run_cons, Session.run_nil, Session.step, Session.accept, Session.inFile, applied]

/-- The text of a file, and none of a node that is not there. -/
def startText (store : Store) : Option Node → Bytes
  | some (.file _ _ dataKey) => (store.text dataKey).bytes
  | _ => []

theorem changesProps_file (anchor : Tree) (dirs : List OpenDir) (baton next : Baton) (name text : Bytes) :
    ChangesProps anchor (fun props => ⟨dirs, some ⟨baton, name, props, text⟩, next, none⟩)
      (.changeFileProp baton) := by
  intro props name value
  simp [Session.accept, Session.inFile]

/-- A file becomes the one of the target. -/
theorem run_deltaFiles {source : Option Bytes} {target : Bytes} {s : Option Node} {id : NodeId}
    {propKey dataKey : Bytes} (start : Start c source target s (.file id propKey dataKey))
    (texts : c.textDeltas = true) (sourceIsFile : ∀ node, s = some node → node.isDir = false)
    (baton : Baton) :
    ∃ steps, deltaFiles c baton source target = .ok steps ∧
      (∀ anchor dirs next name,
        Session.run anchor ⟨dirs, some ⟨baton, name, startProps c.store s, startText c.store s⟩, next,
            none⟩ steps =
          some ⟨dirs, some ⟨baton, name, (c.store.props propKey).value, (c.store.text dataKey).bytes⟩,
            next, none⟩) ∧
      (source = none → TargetOnly (components target) steps) := by
  obtain ⟨props, made, runs, only⟩ := run_deltaProplists start (.changeFileProp baton)
  have propsRun := fun anchor dirs next name text =>
    runs anchor _ (changesProps_file anchor dirs baton next name text)
  cases start with
  | empty opened =>
      obtain ⟨sent, isSent, calls, sentRun⟩ := run_sendTextDelta texts baton ⟨[], by decide⟩
        (c.store.text dataKey).bytes
      refine ⟨props ++ .access .target target :: sent, ?_, ?_, ?_⟩
      · simp only [deltaFiles, made, fileContents, fileKey, opened, isSent, bind, Except.bind, pure,
          Except.pure]
      · intro anchor dirs next name
        apply Session.run_trans (propsRun anchor dirs next name [])
        rw [Session.run_access]
        exact sentRun anchor dirs next name _
      · intro isNone
        exact (only isNone).append ((TargetOnly.calls _ calls).cons_access (List.prefix_refl _))
  | @paired path _ s _ sourceInSource _ _ targetInTarget =>
      cases s with
      | dir id propKey entries => exact absurd (sourceIsFile _ rfl) (by simp [Node.isDir])
      | file sourceId sourcePropKey sourceDataKey =>
          by_cases same : dataKey = sourceDataKey
          · refine ⟨props ++ [.access .target target, .access .source path], ?_, ?_,
              fun empty => by cases empty⟩
            · simp only [deltaFiles, made, contentsChanged, fileKey, sourceInSource, targetInTarget, bind,
                Except.bind, pure, Except.pure, same, ne_eq, not_true_eq_false, decide_false,
                Bool.false_eq_true, if_false]
            · intro anchor dirs next name
              apply Session.run_trans (propsRun anchor dirs next name _)
              rw [same]
              rfl
          · obtain ⟨sent, isSent, calls, sentRun⟩ := run_sendTextDelta texts baton
              (c.store.text sourceDataKey) (c.store.text dataKey).bytes
            refine ⟨props ++ .access .target target :: .access .source path :: sent, ?_, ?_,
              fun empty => by cases empty⟩
            · simp only [deltaFiles, made, contentsChanged, fileContents, fileKey, sourceInSource,
                targetInTarget, isSent, bind, Except.bind, pure, Except.pure, ne_eq, same,
                not_false_eq_true, decide_true, if_true]
            · intro anchor dirs next name
              apply Session.run_trans (propsRun anchor dirs next name _)
              rw [Session.run_access, Session.run_access]
              exact sentRun anchor dirs next name _

end Files

section Directories

variable {c : Context}

/-- The steps turn the innermost directory into another one and touch nothing else. -/
def Turns (steps : List Step) (next next' : Baton) (dir dir' : OpenDir) : Prop :=
  ∀ anchor rest, Session.run anchor ⟨dir :: rest, none, next, none⟩ steps =
    some ⟨dir' :: rest, none, next', none⟩

theorem Turns.refl (next : Baton) (dir : OpenDir) : Turns [] next next dir dir := fun _ _ => rfl

theorem Turns.trans {steps more : List Step} {next next' next'' : Baton} {dir dir' dir'' : OpenDir}
    (first : Turns steps next next' dir dir') (second : Turns more next' next'' dir' dir'') :
    Turns (steps ++ more) next next'' dir dir'' :=
  fun anchor rest => Session.run_trans (first anchor rest) (second anchor rest)

theorem Turns.cons_access {steps : List Step} {next next' : Baton} {dir dir' : OpenDir} (side : Side)
    (path : Bytes) (turns : Turns steps next next' dir dir') :
    Turns (.access side path :: steps) next next' dir dir' := turns

theorem turns_delete {dir : OpenDir} {baton : Baton} (top : dir.baton = baton) (name : Bytes)
    (next : Baton) : Turns [delete baton name] next next dir (dir.set name none) := by
  intro anchor rest
  simp [delete, Session.run_cons, Session.run_nil, Session.step, Session.accept, Session.inside, top]

/-- What the recursion into a directory has to do. -/
def DirSpec (c : Context) (deltaDirs : DirDelta) (height : Nat) : Prop :=
  ∀ (dirBaton : Baton) (source : Option Bytes) (target : Bytes) (s : Option Node) (t : Node) (next : Baton),
    Start c source target s t → t.isDir = true → (∀ node, s = some node → node.isDir = true) →
    t.height ≤ height →
    ∃ steps next', deltaDirs dirBaton source target next = .ok (steps, next') ∧
      (∀ name, Turns steps next next' ⟨dirBaton, name, startProps c.store s, startEntries c.store s⟩
        ⟨dirBaton, name, (c.store.props t.propKey).value, t.look c.store⟩) ∧
      (source = none → TargetOnly (components target) steps)

theorem isDir_eq {side : Side} {path : Bytes} {node : Node} (opened : c.opened side path = .ok node) :
    isDir c side path = .ok node.isDir := by
  rw [isDir, opened]
  rfl

/-- Opening a directory, what happens in it, and closing it. -/
theorem turns_directory {steps : List Step} {next next' : Baton} {dir opened closed : OpenDir}
    (call : EditorCall) (enters : ∀ anchor rest,
      Session.accept anchor ⟨dir :: rest, none, next, none⟩ call =
        some ⟨opened :: dir :: rest, none, next + 1, none⟩)
    (turns : Turns steps (next + 1) next' opened closed) :
    Turns (.call call :: (steps ++ [.call (.closeDirectory closed.baton)])) next next' dir
      (dir.set closed.name (some closed.tree)) := by
  intro anchor rest
  rw [Session.run_cons, Session.step, enters, Option.bind_some]
  apply Session.run_trans (turns anchor (dir :: rest))
  simp [Session.run_cons, Session.run_nil, Session.step, Session.accept, Session.inside]

/-- Opening a file, what happens to it, and closing it. -/
theorem turns_file {steps : List Step} {next : Baton} {dir : OpenDir} {opened closed : OpenFile}
    (call : EditorCall) (enters : ∀ anchor rest,
      Session.accept anchor ⟨dir :: rest, none, next, none⟩ call =
        some ⟨dir :: rest, some opened, next + 1, none⟩)
    (turns : ∀ anchor rest, Session.run anchor ⟨dir :: rest, some opened, next + 1, none⟩ steps =
      some ⟨dir :: rest, some closed, next + 1, none⟩) :
    Turns (.call call :: (steps ++ [.call (.closeFile closed.baton)])) next (next + 1) dir
      (dir.set closed.name (some closed.tree)) := by
  intro anchor rest
  rw [Session.run_cons, Session.step, enters, Option.bind_some]
  apply Session.run_trans (turns anchor rest)
  simp [Session.run_cons, Session.run_nil, Session.step, Session.accept]

/-- A new entry is added with all that is in it. -/
theorem addFileOrDir_spec {deltaDirs : DirDelta} {height : Nat} (spec : DirSpec c deltaDirs height)
    (texts : c.textDeltas = true) {parent entry : Bytes} {t : Node}
    (opened : c.opened .target (addComponent parent entry) = .ok t) (small : t.height ≤ height)
    (dirBaton next : Baton) :
    ∃ steps next', addFileOrDir deltaDirs c dirBaton none parent entry next = .ok (steps, next') ∧
      (∀ dir : OpenDir, dir.baton = dirBaton → dir.entries entry = none →
        Turns steps next next' dir (dir.set entry (some (contents c.store t)))) ∧
      TargetOnly (components (addComponent parent entry)) steps := by
  have start := Start.empty opened
  cases t with
  | dir id propKey entries =>
      obtain ⟨steps, next', made, turns, only⟩ := spec next none (addComponent parent entry) none _
        (next + 1) start rfl (fun _ absurd => by cases absurd) small
      refine ⟨.access .target (addComponent parent entry) ::
        .call (.addDirectory entry dirBaton none invalidRevnum next) ::
        (steps ++ [.call (.closeDirectory next)]), next', ?_, ?_, ?_⟩
      · simp only [addFileOrDir, isDir_eq opened, Node.isDir, Option.map_none, made, bind, Except.bind,
          if_true]
        rfl
      · intro dir top absent
        apply Turns.cons_access
        rw [contents_dir c.store rfl]
        apply turns_directory _ _ (turns entry)
        intro anchor rest
        simp [Session.accept, Session.enterDir, Session.inside, top, absent, startProps, startEntries]
      · exact (((only rfl).append ((TargetOnly.nil _).cons_call _)).cons_call _).cons_access
          (List.prefix_refl _)
  | file id propKey dataKey =>
      obtain ⟨steps, made, runs, only⟩ := run_deltaFiles start texts (fun _ absurd => by cases absurd) next
      refine ⟨.access .target (addComponent parent entry) ::
        .call (.addFile entry dirBaton none invalidRevnum next) ::
        (steps ++ [.call (.closeFile next)]), next + 1, ?_, ?_, ?_⟩
      · simp only [addFileOrDir, isDir_eq opened, Node.isDir, Option.map_none, made, bind, Except.bind,
          Bool.false_eq_true, if_false]
        rfl
      · intro dir top absent
        apply Turns.cons_access
        apply turns_file _ _ fun anchor rest => runs anchor (dir :: rest) (next + 1) entry
        intro anchor rest
        simp [Session.accept, Session.enterFile, Session.inside, top, absent, startProps, startText]
      · exact (((only rfl).append ((TargetOnly.nil _).cons_call _)).cons_call _).cons_access
          (List.prefix_refl _)

/-- An entry that is in both trees is changed where it differs. -/
theorem replaceFileOrDir_spec {deltaDirs : DirDelta} {height : Nat} (spec : DirSpec c deltaDirs height)
    (texts : c.textDeltas = true) {targetParent targetEntry sourceParent sourceEntry : Bytes} {s t : Node}
    (start : Start c (some (addComponent sourceParent sourceEntry)) (addComponent targetParent targetEntry)
      (some s) t) (kinds : s.isDir = t.isDir) (small : t.height ≤ height) (dirBaton next : Baton) :
    ∃ steps next', replaceFileOrDir deltaDirs c dirBaton targetParent targetEntry sourceParent sourceEntry
        next = .ok (steps, next') ∧
      ∀ dir : OpenDir, dir.baton = dirBaton → dir.entries targetEntry = some (contents c.store s) →
        Turns steps next next' dir (dir.set targetEntry (some (contents c.store t))) := by
  have opened := start.target
  cases t with
  | dir id propKey entries =>
      obtain ⟨steps, next', made, turns, -⟩ := spec next _ _ _ _ (next + 1) start rfl
        (fun node same => by
          cases same
          exact kinds) small
      refine ⟨.access .target (addComponent targetParent targetEntry) ::
        .call (.openDirectory targetEntry dirBaton (getRevisionFromHash c.sourceRevDiffs
          (addComponent sourceParent sourceEntry)) next) ::
        (steps ++ [.call (.closeDirectory next)]), next', ?_, ?_⟩
      · simp only [replaceFileOrDir, isDir_eq opened, Node.isDir, made, bind, Except.bind, if_true]
        rfl
      · intro dir top present
        apply Turns.cons_access
        rw [contents_dir c.store rfl]
        apply turns_directory _ _ (turns targetEntry)
        intro anchor rest
        rw [contents_dir c.store kinds] at present
        simp [Session.accept, Session.enterDir, Session.inside, top, present, startProps, startEntries]
  | file id propKey dataKey =>
      obtain ⟨steps, made, runs, -⟩ := run_deltaFiles start texts
        (fun node same => by
          cases same
          exact kinds) next
      refine ⟨.access .target (addComponent targetParent targetEntry) ::
        .call (.openFile targetEntry dirBaton (getRevisionFromHash c.sourceRevDiffs
          (addComponent sourceParent sourceEntry)) next) ::
        (steps ++ [.call (.closeFile next)]), next + 1, ?_, ?_⟩
      · simp only [replaceFileOrDir, isDir_eq opened, Node.isDir, made, bind, Except.bind,
          Bool.false_eq_true, if_false]
        rfl
      · intro dir top present
        apply Turns.cons_access
        apply turns_file _ _ fun anchor rest => runs anchor (dir :: rest) (next + 1) targetEntry
        intro anchor rest
        cases s with
        | dir id propKey entries => cases kinds
        | file id propKey dataKey =>
            rw [contents] at present
            simp [Session.accept, Session.enterFile, Session.inside, top, present, startProps, startText,
              Node.propKey]

theorem OpenDir.set_self {dir : OpenDir} {name : Bytes} {tree : Option Tree} (same : dir.entries name = tree) :
    dir.set name tree = dir := by
  rw [OpenDir.set, ← same, Function.update_eq_self]

theorem OpenDir.set_set (dir : OpenDir) (name : Bytes) (first second : Option Tree) :
    (dir.set name first).set name second = dir.set name second := by
  rw [OpenDir.set, OpenDir.set, OpenDir.set, Function.update_idem]

/-- The entries of the source, and what is known of them for a name. -/
def Knows (sourceEntries : SourceEntries) (source : Option Bytes) (s : Option Node) (name : Bytes) : Prop :=
  (sourceEntries = none ∧ source = none ∧ s = none) ∨
    ∃ path node entries, sourceEntries = some (path, entries) ∧ source = some path ∧ s = some node ∧
      entries.lookup name = (node.child name).map Node.id

variable (sound : c.Sound) (texts : c.textDeltas = true) (recurse : c.recurse = true)

include sound texts recurse in
/-- One entry becomes the one of the target: it stays, is added, changed, or deleted and added. -/
theorem deltaEntry_spec {deltaDirs : DirDelta} {height : Nat} (spec : DirSpec c deltaDirs height)
    {source : Option Bytes} {target name : Bytes} {s : Option Node} {t child : Node}
    (start : Start c source target s t) (found : t.child name = some child)
    (small : child.height ≤ height) {sourceEntries : SourceEntries}
    (knows : Knows sourceEntries source s name) (dirBaton next : Baton) :
    ∃ steps next', deltaEntry deltaDirs c dirBaton sourceEntries target name child.id next =
        .ok (steps, next') ∧
      (∀ dir : OpenDir, dir.baton = dirBaton → dir.entries name = startEntries c.store s name →
        Turns steps next next' dir (dir.set name (some (contents c.store child)))) ∧
      (source = none → TargetOnly (components (addComponent target name)) steps) := by
  have opened := c.opened_child sound start.target found
  obtain ⟨added, next₁, made, adds, only⟩ := addFileOrDir_spec spec texts opened small dirBaton next
  have enters : (c.recurse || !child.isDir) = true := by rw [recurse, Bool.true_or]
  cases start with
  | empty isTarget =>
      rcases knows with ⟨rfl, -, -⟩ | ⟨_, _, _, -, absurd, -⟩
      · refine ⟨added, next₁, ?_, fun dir top absent => adds dir top absent, fun _ => only⟩
        simp only [deltaEntry, isDir_eq opened, bind, Except.bind, enters, if_true, made]
      · cases absurd
  | @paired path _ s _ sourceInSource sourceInTarget targetInSource targetInTarget =>
      rcases knows with ⟨-, absurd, -⟩ | ⟨_, _, entries, rfl, same, same', listed⟩
      · cases absurd
      · cases same
        cases same'
        cases inSource : s.child name with
        | none =>
            rw [inSource] at listed
            refine ⟨added, next₁, ?_, ?_, fun absurd => by cases absurd⟩
            · simp only [deltaEntry, isDir_eq opened, bind, Except.bind, enters, if_true, listed,
                Option.map_none, made]
            · intro dir top absent
              rw [startEntries, Node.look, inSource] at absent
              exact adds dir top absent
        | some old =>
            rw [inSource] at listed
            have oldFound := c.opened_child sound sourceInSource inSource
            have sourceWay := follow_components oldFound
            have targetWay := follow_components opened
            have looks : ∀ dir : OpenDir, dir.entries name = startEntries c.store (some s) name →
                dir.entries name = some (contents c.store old) := by
              intro dir same
              rw [same, startEntries, Node.look, inSource]
              rfl
            cases distance : idDistance old.id child.id with
            | none =>
                refine ⟨delete dirBaton name :: added, next₁, ?_, ?_, fun absurd => by cases absurd⟩
                · simp only [deltaEntry, isDir_eq opened, bind, Except.bind, enters, if_true, listed,
                    Option.map_some, distance, made]
                  rfl
                · intro dir top same
                  have deleted := turns_delete top name next
                  have again := deleted.trans (adds (dir.set name none) top (Function.update_self _ _ _))
                  rw [OpenDir.set_set] at again
                  exact again
            | some steps =>
                cases steps with
                | zero =>
                    have sameId := eq_of_idDistance (sound.properId .source _ old sourceWay)
                      (sound.properId .target _ child targetWay) distance
                    have sameNode := sound.sameNode _ _ old child sourceWay targetWay sameId
                    refine ⟨[], next, ?_, ?_, fun absurd => by cases absurd⟩
                    · simp only [deltaEntry, isDir_eq opened, bind, Except.bind, enters, if_true, listed,
                        Option.map_some, distance]
                      rfl
                    · intro dir top same
                      rw [OpenDir.set_self (sameNode ▸ looks dir same)]
                      exact Turns.refl next dir
                | succ steps =>
                    have kinds := sound.sameKind _ _ old child sourceWay targetWay (by simp [distance])
                    obtain ⟨changed, next₂, replaced, changes⟩ := replaceFileOrDir_spec spec texts
                      (Start.paired (c.opened_child sound targetInSource inSource) opened
                        oldFound (c.opened_child sound sourceInTarget found)) kinds small dirBaton next
                    refine ⟨changed, next₂, ?_, ?_, fun absurd => by cases absurd⟩
                    · simp only [deltaEntry, isDir_eq opened, bind, Except.bind, enters, if_true, listed,
                        Option.map_some, distance, replaced]
                    · intro dir top same
                      exact changes dir top (looks dir same)

theorem Knows.removeName {sourceEntries : SourceEntries} {source : Option Bytes} {s : Option Node}
    {name other : Bytes} (knows : Knows sourceEntries source s other) (differ : other ≠ name) :
    Knows (sourceEntries.map fun found => (found.1, removeName name found.2)) source s other := by
  rcases knows with ⟨rfl, isNone, isNone'⟩ | ⟨path, node, entries, rfl, isSome, isSome', listed⟩
  · exact .inl ⟨rfl, isNone, isNone'⟩
  · refine .inr ⟨path, node, _, rfl, isSome, isSome', ?_⟩
    rw [lookup_removeName entries differ, listed]

include sound texts recurse in
/-- The loop makes every entry of the target and leaves the other entries of the source. -/
theorem deltaEntries_spec {deltaDirs : DirDelta} {height : Nat} (spec : DirSpec c deltaDirs height)
    {source : Option Bytes} {target : Bytes} {s : Option Node} {t : Node} (start : Start c source target s t)
    (small : ∀ name child, t.child name = some child → child.height ≤ height) (dirBaton : Baton)
    (todo : List (Bytes × NodeId)) :
    ∀ (sourceEntries : SourceEntries) (next : Baton), (todo.map Prod.fst).Nodup →
      (∀ entry ∈ todo, ∃ child, t.child entry.1 = some child ∧ child.id = entry.2) →
      (∀ name ∈ todo.map Prod.fst, Knows sourceEntries source s name) →
      ∃ steps next', deltaEntries deltaDirs c dirBaton target todo sourceEntries next =
          .ok (steps, sourceEntries.map (fun found =>
            (found.1, found.2.filter fun entry => entry.1 ∉ todo.map Prod.fst)), next') ∧
        (∀ dir : OpenDir, dir.baton = dirBaton →
          (∀ name ∈ todo.map Prod.fst, dir.entries name = startEntries c.store s name) →
          Turns steps next next' dir
            { dir with entries := patched (todo.map Prod.fst) (t.look c.store) dir.entries }) ∧
        (source = none → TargetOnly (components target) steps) := by
  induction todo with
  | nil =>
      intro sourceEntries next _ _ _
      refine ⟨[], next, ?_, fun dir _ _ => Turns.refl next dir, fun _ => TargetOnly.nil _⟩
      cases sourceEntries with
      | none => rfl
      | some found => simp [deltaEntries]
  | cons entry rest ih =>
      intro sourceEntries next nodup children knows
      obtain ⟨name, id⟩ := entry
      rw [List.map_cons, List.nodup_cons] at nodup
      have differs : ∀ other ∈ rest.map Prod.fst, other ≠ name := fun other member same =>
        nodup.1 (same ▸ member)
      obtain ⟨child, found, rfl⟩ := children (name, id) List.mem_cons_self
      obtain ⟨first, next₁, made, changes, only⟩ := deltaEntry_spec sound texts recurse spec start found
        (small name child found) (knows name List.mem_cons_self) dirBaton next
      obtain ⟨more, next₂, loop, turns, only'⟩ := ih
        (sourceEntries.map fun found => (found.1, removeName name found.2)) next₁ nodup.2
        (fun entry member => children entry (List.mem_cons_of_mem _ member))
        (fun other member =>
          (knows other (List.mem_cons_of_mem _ member)).removeName (differs other member))
      have valid : IsComponent name := by
        apply isComponent_of_single
        apply sound.names .target _ t (follow_components start.target) name
        by_contra absent
        rw [Node.child, lookup_eq_none_iff.mpr absent] at found
        cases found
      refine ⟨.access .target (addComponent target name) :: (first ++ more), next₂, ?_, ?_, ?_⟩
      · simp only [deltaEntries, made, loop, bind, Except.bind, pure, Except.pure, Option.map_map]
        congr 4
        funext found
        simp only [Function.comp_apply, removeName, List.filter_filter]
        congr 2
        funext entry
        rw [Bool.eq_iff_iff]
        simp [not_or, and_comm]
      · intro dir top same
        apply Turns.cons_access
        apply (changes dir top (same name List.mem_cons_self)).trans
        have later := turns (dir.set name (some (contents c.store child))) top (by
          intro other member
          rw [OpenDir.set]
          exact (Function.update_of_ne (differs other member) _ _).trans
            (same other (List.mem_cons_of_mem _ member)))
        have look : some (contents c.store child) = t.look c.store name := by
          rw [Node.look, found]
          rfl
        rw [look] at later ⊢
        rw [List.map_cons, ← patched_cons]
        exact later
      · intro isNone
        have inside : components target <+: components (addComponent target name) := by
          rw [components_addComponent target valid]
          exact List.prefix_append _ _
        exact (((only isNone).mono inside).append (only' isNone)).cons_access inside

include sound recurse in
/-- The loop over the rest of the source deletes all of it. -/
theorem deleteEntries_spec {source : Bytes} {s : Node} (opened : c.opened .source source = .ok s)
    (dirBaton next : Baton) (left : List (Bytes × NodeId)) :
    (∀ entry ∈ left, ∃ child, s.child entry.1 = some child) →
      ∃ steps, deleteEntries c dirBaton source left = .ok steps ∧
        ∀ dir : OpenDir, dir.baton = dirBaton → Turns steps next next dir
          { dir with entries := patched (left.map Prod.fst) (fun _ => none) dir.entries } := by
  induction left with
  | nil => exact fun _ => ⟨[], rfl, fun dir _ => Turns.refl next dir⟩
  | cons entry rest ih =>
      intro children
      obtain ⟨name, id⟩ := entry
      obtain ⟨child, found⟩ := children (name, id) List.mem_cons_self
      obtain ⟨more, loop, turns⟩ := ih fun entry member => children entry (List.mem_cons_of_mem _ member)
      have inSource := c.opened_child sound opened found
      refine ⟨.access .source (addComponent source name) :: ([delete dirBaton name] ++ more), ?_, ?_⟩
      · simp only [deleteEntries, isDir_eq inSource, loop, recurse, Bool.true_or, if_true, bind,
          Except.bind, pure, Except.pure]
      · intro dir top
        apply Turns.cons_access
        apply (turns_delete top name next).trans
        rw [List.map_cons, ← patched_cons]
        exact turns (dir.set name none) top

theorem dirEntries_eq {side : Side} {path : Bytes} {node : Node} (opened : c.opened side path = .ok node)
    (isDir : node.isDir = true) :
    dirEntries c side path = .ok (node.entries.map fun entry => (entry.1, entry.2.id)) := by
  cases node with
  | file id propKey dataKey => cases isDir
  | dir id propKey entries =>
      simp only [dirEntries, opened, bind, Except.bind]
      rfl

theorem changesProps_dir (anchor : Tree) (rest : List OpenDir) (baton next : Baton) (name : Bytes)
    (entries : Bytes → Option Tree) :
    ChangesProps anchor (fun props => ⟨⟨baton, name, props, entries⟩ :: rest, none, next, none⟩)
      (.changeDirProp baton) := by
  intro props name value
  simp [Session.accept, Session.inside]

theorem look_eq_none {node : Node} {name : Bytes} (absent : name ∉ node.entries.map Prod.fst) (store : Store) :
    node.look store name = none := by
  rw [Node.look, Node.child, lookup_eq_none_iff.mpr absent]
  rfl

theorem listed_children {node : Node} (nodup : (node.entries.map Prod.fst).Nodup)
    {listed : List (Bytes × NodeId)}
    (perm : listed.Perm (node.entries.map fun entry => (entry.1, entry.2.id))) :
    ∀ entry ∈ listed, ∃ child, node.child entry.1 = some child ∧ child.id = entry.2 := by
  intro entry member
  obtain ⟨found, isFound, rfl⟩ := List.mem_map.mp (perm.mem_iff.mp member)
  exact ⟨found.2, (lookup_eq_some_iff nodup).mpr isFound, rfl⟩

theorem map_fst_listed (entries : List (Bytes × Node)) :
    (entries.map fun entry => (entry.1, entry.2.id)).map Prod.fst = entries.map Prod.fst := by
  rw [List.map_map]
  rfl

include sound texts recurse in
/-- A directory becomes the one of the target, from the leaves up. -/
theorem deltaDirs_spec (fuel : Nat) : DirSpec c (deltaDirs c fuel) fuel := by
  induction fuel with
  | zero =>
      intro dirBaton source target s t next start isDir sourceIsDir small
      cases t with
      | file id propKey dataKey => cases isDir
      | dir id propKey entries =>
          rw [Node.height] at small
          omega
  | succ fuel ih =>
      intro dirBaton source target s t next start isDir sourceIsDir small
      have smaller : ∀ name child, t.child name = some child → child.height ≤ fuel := by
        intro name child found
        have lower := Node.height_child found
        omega
      have opened := start.target
      have nodup := sound.nodup .target _ t (follow_components opened)
      obtain ⟨props, made, propsRun, propsOnly⟩ := run_deltaProplists start (.changeDirProp dirBaton)
      have perm := c.order.perm ⟨.targetEntries, source, target⟩
        (t.entries.map fun entry => (entry.1, entry.2.id))
      have names : ((c.order.list ⟨.targetEntries, source, target⟩
          (t.entries.map fun entry => (entry.1, entry.2.id))).map Prod.fst).Perm
            (t.entries.map Prod.fst) := by
        rw [← map_fst_listed]
        exact perm.map Prod.fst
      have loop := fun sourceEntries knows => deltaEntries_spec sound texts recurse ih start smaller dirBaton
        (c.order.list ⟨.targetEntries, source, target⟩ (t.entries.map fun entry => (entry.1, entry.2.id)))
        sourceEntries next (names.nodup_iff.mpr nodup) (listed_children nodup perm) knows
      have noOthers : ∀ name, name ∉ (c.order.list ⟨.targetEntries, source, target⟩
          (t.entries.map fun entry => (entry.1, entry.2.id))).map Prod.fst → t.look c.store name = none := by
        intro name absent
        rw [names.mem_iff] at absent
        exact look_eq_none absent c.store
      cases start with
      | empty _ =>
          obtain ⟨steps, next', looped, turns, only⟩ := loop none fun _ _ => .inl ⟨rfl, rfl, rfl⟩
          refine ⟨props ++ .access .target target :: (sourceAccess none ++ steps ++ []), next', ?_, ?_, ?_⟩
          · simp only [deltaDirs, made, dirEntries_eq opened isDir, sourceDirEntries, looped, bind,
              Except.bind, pure, Except.pure, Option.map_none]
          · intro name
            apply Turns.trans fun anchor rest =>
              propsRun anchor _ (changesProps_dir anchor rest dirBaton next name _)
            apply Turns.cons_access
            rw [List.append_nil, sourceAccess, List.nil_append]
            have turned := turns ⟨dirBaton, name, (c.store.props t.propKey).value, fun _ => none⟩ rfl
              fun _ _ => rfl
            rw [patched_none noOthers] at turned
            exact turned
          · intro _
            have all := (only rfl).append (TargetOnly.nil _)
            exact (propsOnly rfl).append (all.cons_access (List.prefix_refl _))
      | @paired path _ s _ sourceInSource _ _ _ =>
          have fromDir := sourceIsDir s rfl
          have sourceNodup := sound.nodup .source _ s (follow_components sourceInSource)
          obtain ⟨steps, next', looped, turns, -⟩ := loop
            (some (path, s.entries.map fun entry => (entry.1, entry.2.id))) fun name _ =>
              .inr ⟨path, s, _, rfl, rfl, rfl, lookup_map_snd Node.id s.entries name⟩
          have left := c.order.perm ⟨.sourceEntries, some path, target⟩
            ((s.entries.map fun entry => (entry.1, entry.2.id)).filter fun entry =>
              entry.1 ∉ (c.order.list ⟨.targetEntries, some path, target⟩
                (t.entries.map fun entry => (entry.1, entry.2.id))).map Prod.fst)
          obtain ⟨deletions, deleted, removes⟩ := deleteEntries_spec sound recurse sourceInSource dirBaton
            next' (c.order.list ⟨.sourceEntries, some path, target⟩ _) (by
              intro entry member
              obtain ⟨child, found, -⟩ := listed_children sourceNodup (List.Perm.refl _) entry
                (List.mem_of_mem_filter (left.mem_iff.mp member))
              exact ⟨child, found⟩)
          refine ⟨props ++ .access .target target ::
            (sourceAccess (some path) ++ steps ++ deletions), next', ?_, ?_, fun absurd => by cases absurd⟩
          · simp only [deltaDirs, made, dirEntries_eq opened isDir, sourceDirEntries,
              dirEntries_eq sourceInSource fromDir, looped, bind, Except.bind, pure, Except.pure,
              Option.map_some, deleted]
          · intro name
            apply Turns.trans fun anchor rest =>
              propsRun anchor _ (changesProps_dir anchor rest dirBaton next name _)
            apply Turns.cons_access
            rw [sourceAccess, List.append_assoc]
            apply Turns.cons_access
            have turned := (turns ⟨dirBaton, name, (c.store.props t.propKey).value, s.look c.store⟩ rfl
              fun _ _ => rfl).trans (removes _ rfl)
            rw [patched_removed left noOthers fun name absent => look_eq_none (by
              rw [map_fst_listed] at absent
              exact absent) c.store] at turned
            exact turned

end Directories

end Subversion.Repos
