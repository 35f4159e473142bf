/-
This file models the roots of a filesystem as trees of nodes, and what is read from them by path.
-/

import Subversion.Delta.RoundTrip
import Subversion.Fs.Tree
import Subversion.Subr.Path

namespace Subversion.Repos

open Delta Fs Subr Svndiff

/-- Properties and texts are reached by the keys of their representations. -/
inductive Node where
  | file (id : NodeId) (propKey dataKey : Bytes)
  | dir (id : NodeId) (propKey : Bytes) (entries : List (Bytes × Node))

namespace Node

def id : Node → NodeId
  | .file id _ _ => id
  | .dir id _ _ => id

def propKey : Node → Bytes
  | .file _ propKey _ => propKey
  | .dir _ propKey _ => propKey

def isDir : Node → Bool
  | .file _ _ _ => false
  | .dir _ _ _ => true

def entries : Node → List (Bytes × Node)
  | .file _ _ _ => []
  | .dir _ _ entries => entries

def child (node : Node) (name : Bytes) : Option Node := node.entries.lookup name

/-- The node at the end of a way down. -/
def follow : Node → List Bytes → Option Node
  | node, [] => some node
  | node, name :: rest => (node.child name).bind fun child => child.follow rest

mutual

/-- The number of nodes on the longest way down. -/
def height : Node → Nat
  | .file _ _ _ => 1
  | .dir _ _ entries => entriesHeight entries + 1

def entriesHeight : List (Bytes × Node) → Nat
  | [] => 0
  | (_, node) :: rest => max node.height (entriesHeight rest)

end

theorem height_child {node child : Node} {name : Bytes} (found : node.child name = some child) :
    child.height < node.height := by
  have below : ∀ entries : List (Bytes × Node), entries.lookup name = some child →
      child.height ≤ entriesHeight entries := by
    intro entries
    induction entries with
    | nil => exact fun found => by cases found
    | cons entry rest ih =>
        intro found
        rw [List.lookup_cons] at found
        rw [entriesHeight]
        split at found
        · cases found
          exact Nat.le_max_left _ _
        · exact (ih found).trans (Nat.le_max_right _ _)
  cases node with
  | file id propKey dataKey => cases found
  | dir id propKey entries =>
      rw [height]
      exact Nat.lt_succ_of_le (below entries found)

theorem height_follow (way : List Bytes) :
    ∀ {node found : Node}, node.follow way = some found → found.height ≤ node.height := by
  induction way with
  | nil =>
      intro node found same
      cases same
      exact le_rfl
  | cons name rest ih =>
      intro node found below
      rw [follow] at below
      cases inside : node.child name with
      | none =>
          rw [inside] at below
          cases below
      | some child =>
          rw [inside] at below
          exact (ih below).trans (height_child inside).le

theorem isDir_of_child {node child : Node} {name : Bytes} (found : node.child name = some child) :
    node.isDir = true := by
  cases node with
  | file id propKey dataKey => cases found
  | dir id propKey entries => rfl

end Node

/-- A hash of properties has every name once. -/
structure PropTable where
  list : List (Bytes × Bytes)
  nodup : (list.map Prod.fst).Nodup

/-- What the representations of one filesystem hold. -/
structure Store where
  props : Bytes → PropTable
  text : Bytes → StreamContents

structure FsRoot where
  name : Root
  node : Node

section Paths

/-- The parts between the separators, which may be empty. -/
def pathEntries : Bytes → List Bytes
  | [] => [[]]
  | byte :: rest =>
      if byte = separator then [] :: pathEntries rest
      else
        match pathEntries rest with
        | [] => [[byte]]
        | first :: others => (byte :: first) :: others

/-- An empty part stays in the same directory. -/
def openFrom (missing notDirectory : SvnError) : Node → List Bytes → Except SvnError Node
  | here, [] => .ok here
  | here, entry :: rest => do
      let child ←
        if entry = [] then pure here
        else
          match here.child entry with
          | none => .error missing
          | some child => pure child
      if rest ≠ [] ∧ child.isDir = false then .error notDirectory
      else openFrom missing notDirectory child rest

def openPath (fsPath : String) (root : FsRoot) (path : Bytes) : Except SvnError Node :=
  openFrom (Trail.notFound root.name path)
    ⟨.fsNotDirectory, "`" ++ bytesText path ++ "' is not a directory in filesystem `" ++ fsPath ++ "'"⟩
    root.node (pathEntries path)

/-- The components that are not empty. -/
def components (path : Bytes) : List Bytes := (pathEntries path).filter (· ≠ [])

theorem pathEntries_append (path rest : Bytes) :
    pathEntries (path ++ separator :: rest) = pathEntries path ++ pathEntries rest := by
  induction path with
  | nil => rfl
  | cons byte path ih =>
      rw [List.cons_append, pathEntries, pathEntries, ih]
      split
      · rfl
      · cases found : pathEntries path with
        | nil =>
            cases path with
            | nil => simp [pathEntries] at found
            | cons byte path =>
                rw [pathEntries] at found
                split at found
                · cases found
                · split at found <;> cases found
        | cons first others => rfl

theorem pathEntries_component {name : Bytes} (valid : separator ∉ name) : pathEntries name = [name] := by
  induction name with
  | nil => rfl
  | cons byte name ih =>
      rw [List.mem_cons, not_or] at valid
      rw [pathEntries, if_neg (Ne.symm valid.1), ih valid.2]

/-- An error of an unfinished way does not depend on how the path is spelled. -/
theorem openFrom_append {missing notDirectory missing' notDirectory' : SvnError} {name : Bytes}
    {found : Node} (isDir : found.isDir = true) :
    ∀ (parts : List Bytes) (here : Node), openFrom missing notDirectory here parts = .ok found →
      openFrom missing' notDirectory' here (parts ++ [name]) =
        openFrom missing' notDirectory' found [name] := by
  intro parts
  induction parts with
  | nil =>
      intro here opened
      cases opened
      rfl
  | cons part rest ih =>
      intro here opened
      rw [openFrom] at opened
      rw [List.cons_append, openFrom]
      have step : ∀ child : Node,
          (if rest ≠ [] ∧ child.isDir = false then .error notDirectory
            else openFrom missing notDirectory child rest) = Except.ok found →
          (if rest ++ [name] ≠ [] ∧ child.isDir = false then .error notDirectory'
            else openFrom missing' notDirectory' child (rest ++ [name])) =
              openFrom missing' notDirectory' found [name] := by
        intro child continued
        split at continued
        · cases continued
        · next allowed =>
            have childDir : child.isDir = true := by
              by_cases last : rest = []
              · rw [last, openFrom] at continued
                cases continued
                exact isDir
              · by_contra notDir
                exact allowed ⟨last, by simpa using notDir⟩
            rw [if_neg (by simp [childDir])]
            exact ih child continued
      by_cases empty : part = []
      · rw [if_pos empty] at opened ⊢
        exact step here opened
      · rw [if_neg empty] at opened ⊢
        cases inside : here.child part with
        | none =>
            rw [inside] at opened
            cases opened
        | some child =>
            rw [inside] at opened
            exact step child opened

theorem openFrom_single (notDirectory : SvnError) {missing : SvnError} {node : Node} {name : Bytes}
    (nonempty : name ≠ []) : openFrom missing notDirectory node [name] =
      match node.child name with
      | none => .error missing
      | some child => .ok child := by
  rw [openFrom, if_neg nonempty]
  cases node.child name <;> rfl

/-- A component is looked up in the directory that the path leads to. -/
theorem openPath_addComponent {fsPath : String} {root : FsRoot} {path name : Bytes} {node : Node}
    (opened : openPath fsPath root path = .ok node) (isDir : node.isDir = true)
    (valid : IsComponent name) :
    openPath fsPath root (addComponent path name) =
      match node.child name with
      | none => .error (Trail.notFound root.name (addComponent path name))
      | some child => .ok child := by
  rw [openPath] at opened
  rw [openPath, ← openFrom_single ⟨.fsNotDirectory,
    "`" ++ bytesText (addComponent path name) ++ "' is not a directory in filesystem `" ++ fsPath ++ "'"⟩
    valid.1]
  have entries : pathEntries name = [name] := pathEntries_component valid.2
  rw [addComponent_eq path valid]
  split
  · next atTop =>
      rcases atTop with rfl | rfl
      · rw [List.nil_append, entries]
        simp only [pathEntries, openFrom, if_true] at opened
        cases opened
        rfl
      · have shape : pathEntries ([separator] ++ name) = [] :: [name] := by
          rw [List.singleton_append, pathEntries, if_pos rfl, entries]
        simp only [pathEntries, openFrom, if_true, bind, Except.bind, pure, Except.pure] at opened
        rw [shape, openFrom]
        split at opened
        · cases opened
        · cases opened
          simp only [if_true, bind, Except.bind, pure, Except.pure, isDir]
          rfl
  · rw [pathEntries_append, entries]
    exact openFrom_append isDir _ _ opened

/-- A path that opens leads down by its components. -/
theorem follow_of_openFrom {missing notDirectory : SvnError} {found : Node} (parts : List Bytes) :
    ∀ here : Node, openFrom missing notDirectory here parts = .ok found →
      here.follow (parts.filter (· ≠ [])) = some found := by
  induction parts with
  | nil =>
      intro here opened
      cases opened
      rfl
  | cons part rest ih =>
      intro here opened
      rw [openFrom] at opened
      by_cases empty : part = []
      · rw [if_pos empty] at opened
        simp only [bind, Except.bind, pure, Except.pure] at opened
        split at opened
        · cases opened
        · rw [List.filter_cons_of_neg (by simp [empty])]
          exact ih here opened
      · rw [if_neg empty] at opened
        cases inside : here.child part with
        | none =>
            rw [inside] at opened
            cases opened
        | some child =>
            rw [inside] at opened
            simp only [bind, Except.bind, pure, Except.pure] at opened
            split at opened
            · cases opened
            · rw [List.filter_cons_of_pos (by simp [empty]), Node.follow, inside]
              exact ih child opened

theorem follow_components {fsPath : String} {root : FsRoot} {path : Bytes} {node : Node}
    (opened : openPath fsPath root path = .ok node) : root.node.follow (components path) = some node :=
  follow_of_openFrom (pathEntries path) root.node opened

theorem components_addComponent (path : Bytes) {name : Bytes} (valid : IsComponent name) :
    components (addComponent path name) = components path ++ [name] := by
  have last : (pathEntries name).filter (· ≠ []) = [name] := by
    rw [pathEntries_component valid.2, List.filter_cons_of_pos (by simp [valid.1])]
    rfl
  rw [addComponent_eq path valid, components, components]
  split
  · next atTop =>
      rcases atTop with rfl | rfl
      · exact last
      · rw [List.singleton_append, pathEntries, if_pos rfl, List.filter_cons_of_neg (by simp), last]
        rfl
  · rw [pathEntries_append, List.filter_append, last]

theorem components_append_separator (path : Bytes) : components (path ++ [separator]) = components path := by
  have parts : pathEntries (path ++ [separator]) = pathEntries path ++ [[]] := pathEntries_append path []
  rw [components, parts, List.filter_append, List.filter_cons_of_neg (by simp)]
  exact List.append_nil _

theorem components_canonicalize (path : Bytes) : components (canonicalize path) = components path := by
  induction path using List.reverseRecOn with
  | nil => rfl
  | append_singleton path byte ih =>
      by_cases last : byte = separator
      · have dropped : canonicalize (path ++ [byte]) = canonicalize path := by
          rw [canonicalize, canonicalize, List.reverse_append, List.reverse_singleton,
            List.singleton_append, List.dropWhile_cons_of_pos (by simpa using last)]
        rw [dropped, ih, last, components_append_separator]
      · rw [canonicalize_of_isRoot ⟨path, byte, rfl, last⟩]

theorem isRoot_canonicalize {path : Bytes} (nonempty : canonicalize path ≠ []) :
    IsRoot (canonicalize path) := by
  have kept : path.reverse.dropWhile (· = separator) ≠ [] := by
    intro empty
    rw [canonicalize, empty] at nonempty
    exact nonempty rfl
  have stops := List.head_dropWhile_not (fun byte : UInt8 => decide (byte = separator)) kept
  refine ⟨(path.reverse.dropWhile (· = separator)).tail.reverse, _, ?_, by simpa using stops⟩
  rw [← List.reverse_cons, List.cons_head_tail]
  rfl

/-- The parent may lose a second separator with the one before the last component. -/
theorem components_parent (before : Bytes) :
    components (if before.getLast? = some separator then before.dropLast else before) =
      components before := by
  split
  · next ends =>
      have split := List.dropLast_append_getLast? separator ends
      rw [← components_append_separator, split]
  · rfl

/-- A path is split at its last component. -/
theorem splitPath_components {path : Bytes} (nonempty : canonicalize path ≠ []) :
    IsComponent (splitPath path).2 ∧
      components path = components (splitPath path).1 ++ [(splitPath path).2] := by
  have isRoot := isRoot_canonicalize nonempty
  have last : (splitPath path).2 =
      ((canonicalize path).reverse.takeWhile (· ≠ separator)).reverse := by
    have given : path ≠ [] := by
      rintro rfl
      exact nonempty rfl
    simp only [splitPath]
    rw [basename, if_neg given, if_neg nonempty]
  have valid : IsComponent (splitPath path).2 := by
    rw [last]
    constructor
    · obtain ⟨before, byte, shape, other⟩ := isRoot
      rw [shape, List.reverse_append, List.reverse_singleton, List.singleton_append,
        List.takeWhile_cons_of_pos (by simpa using other)]
      simp
    · intro member
      have inside := List.mem_takeWhile_imp (List.mem_reverse.mp member)
      simp at inside
  refine ⟨valid, ?_⟩
  have parts := List.takeWhile_append_dropWhile (p := (· ≠ separator)) (l := (canonicalize path).reverse)
  have whole : canonicalize path =
      ((canonicalize path).reverse.dropWhile (· ≠ separator)).reverse ++ (splitPath path).2 := by
    rw [last, ← List.reverse_append, parts, List.reverse_reverse]
  have parent : (splitPath path).1 = removeComponent (canonicalize path) := rfl
  rw [parent, removeComponent, canonicalize_of_isRoot isRoot, chopBackToChar, ← components_canonicalize]
  cases rest : (canonicalize path).reverse.dropWhile (· ≠ separator) with
  | nil =>
      rw [rest] at whole
      nth_rewrite 1 [whole]
      rw [List.reverse_nil, List.nil_append, components, pathEntries_component valid.2,
        List.filter_cons_of_pos (by simp [valid.1])]
      rfl
  | cons byte before =>
      have isSeparator : byte = separator := by
        have stops := List.head_dropWhile_not (fun byte : UInt8 => decide (byte ≠ separator))
          (l := (canonicalize path).reverse) (by
            rw [rest]
            exact List.cons_ne_nil byte before)
        simp only [rest, List.head_cons] at stops
        simpa using stops
      rw [rest, isSeparator, List.reverse_cons, List.append_assoc, List.singleton_append] at whole
      nth_rewrite 1 [whole]
      rw [components, pathEntries_append, List.filter_append, pathEntries_component valid.2,
        List.filter_cons_of_pos (by simp [valid.1])]
      exact congrArg (· ++ [(splitPath path).2]) (components_parent before.reverse).symm

/-- A way down to a directory can be taken by every path with these components. -/
theorem openFrom_of_follow {missing notDirectory : SvnError} {found : Node} (isDir : found.isDir = true)
    (parts : List Bytes) : ∀ here : Node, here.follow (parts.filter (· ≠ [])) = some found →
      openFrom missing notDirectory here parts = .ok found := by
  induction parts with
  | nil =>
      intro here way
      cases way
      rfl
  | cons part rest ih =>
      intro here way
      have stays : ∀ node : Node, node.follow (rest.filter (· ≠ [])) = some found → node.isDir = true := by
        intro node below
        cases names : rest.filter (· ≠ []) with
        | nil =>
            rw [names] at below
            cases below
            exact isDir
        | cons name names' =>
            rw [names, Node.follow] at below
            cases inside : node.child name with
            | none =>
                rw [inside] at below
                cases below
            | some child => exact Node.isDir_of_child inside
      rw [openFrom]
      by_cases empty : part = []
      · rw [List.filter_cons_of_neg (by simp [empty])] at way
        rw [if_pos empty]
        simp only [bind, Except.bind, pure, Except.pure, stays here way, Bool.true_eq_false, and_false, if_false]
        exact ih here way
      · rw [List.filter_cons_of_pos (by simp [empty]), Node.follow] at way
        cases inside : here.child part with
        | none =>
            rw [inside] at way
            cases way
        | some child =>
            rw [inside, Option.bind_some] at way
            rw [if_neg empty]
            simp only [bind, Except.bind, pure, Except.pure, stays child way, Bool.true_eq_false, and_false,
              if_false]
            exact ih child way

theorem openPath_of_follow {fsPath : String} {root : FsRoot} {path : Bytes} {node : Node}
    (isDir : node.isDir = true) (way : root.node.follow (components path) = some node) :
    openPath fsPath root path = .ok node :=
  openFrom_of_follow isDir (pathEntries path) root.node way

end Paths

section Contents

/-- What a tree looks like from outside: its names, kinds, properties and texts. -/
inductive Tree where
  | file (props : Bytes → Option Bytes) (text : Bytes)
  | dir (props : Bytes → Option Bytes) (entries : Bytes → Option Tree)

def PropTable.value (table : PropTable) (name : Bytes) : Option Bytes := table.list.lookup name

mutual

def contents (store : Store) : Node → Tree
  | .file _ propKey dataKey => .file (store.props propKey).value (store.text dataKey).bytes
  | .dir _ propKey entries => .dir (store.props propKey).value (entriesContents store entries)

def entriesContents (store : Store) : List (Bytes × Node) → Bytes → Option Tree
  | [], _ => none
  | (first, node) :: rest, name =>
      if first = name then some (contents store node) else entriesContents store rest name

end

theorem entriesContents_eq (store : Store) (entries : List (Bytes × Node)) (name : Bytes) :
    entriesContents store entries name = (entries.lookup name).map (contents store) := by
  induction entries with
  | nil => rfl
  | cons entry rest ih =>
      obtain ⟨first, node⟩ := entry
      rw [entriesContents, List.lookup_cons]
      by_cases same : first = name
      · rw [if_pos same, same, beq_self_eq_true]
        rfl
      · rw [if_neg same, ih, beq_eq_false_iff_ne.mpr (Ne.symm same)]

/-- The entries of a directory as they look from outside. -/
def Node.look (store : Store) (node : Node) (name : Bytes) : Option Tree :=
  (node.child name).map (contents store)

theorem contents_dir (store : Store) {node : Node} (isDir : node.isDir = true) :
    contents store node = .dir (store.props node.propKey).value (node.look store) := by
  cases node with
  | file id propKey dataKey => cases isDir
  | dir id propKey entries =>
      rw [contents]
      congr 1
      funext name
      exact entriesContents_eq store entries name

end Contents

end Subversion.Repos
