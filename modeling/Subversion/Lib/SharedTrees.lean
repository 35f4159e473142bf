/-
This file studies graphs whose vertices stand for trees that share branches. A frozen vertex may be
shared, and any other one belongs to one place only, so that it can be changed there.
-/

import Mathlib.Data.Set.Basic
import Mathlib.Data.Set.Insert
import Mathlib.Logic.Function.Basic
import Mathlib.Logic.Relation
import Mathlib.Tactic.Common

namespace SharedTrees

/-- A tree with names on its branches. -/
inductive Tree (Name Label : Type) where
  | node (label : Label) (below : Name → Option (Tree Name Label))

structure Vertex (Id Name Label : Type) where
  label : Label
  frozen : Bool
  edge : Name → Option Id

abbrev Graph (Id Name Label : Type) := Id → Option (Vertex Id Name Label)

variable {Id Name Label : Type} {g h : Graph Id Name Label}

def Edge (g : Graph Id Name Label) (parent : Id) (name : Name) (child : Id) : Prop :=
  ∃ vertex, g parent = some vertex ∧ vertex.edge name = some child

abbrev Reach (g : Graph Id Name Label) : Id → Id → Prop :=
  Relation.ReflTransGen fun parent child => ∃ name, Edge g parent name child

/-- A way down along these names. -/
inductive Way (g : Graph Id Name Label) : Id → List Name → Id → Prop where
  | here (id : Id) : Way g id [] id
  | down {parent child last : Id} {name : Name} {names : List Name} (edge : Edge g parent name child)
      (rest : Way g child names last) : Way g parent (name :: names) last

/-- The tree that an id stands for. -/
inductive Shows (g : Graph Id Name Label) : Id → Tree Name Label → Prop where
  | node {id : Id} {vertex : Vertex Id Name Label} {below : Name → Option (Tree Name Label)}
      (found : g id = some vertex) (same : ∀ name, (below name).isSome = (vertex.edge name).isSome)
      (shows : ∀ name child tree, vertex.edge name = some child → below name = some tree →
        Shows g child tree) : Shows g id (.node vertex.label below)

/-- The id is there and not frozen. -/
def Loose (g : Graph Id Name Label) (id : Id) : Prop := ∃ vertex, g id = some vertex ∧ vertex.frozen = false

/-- No edge leads to a missing vertex or from a frozen one to another kind, and a vertex that is not
frozen has one parent at most. The roots have none. All vertices stand for trees. -/
structure Forest (g : Graph Id Name Label) (roots : Set Id) : Prop where
  closed : ∀ {parent name child}, Edge g parent name child → ∃ vertex, g child = some vertex
  freezes : ∀ {parent name child}, Edge g parent name child → Loose g child → Loose g parent
  single : ∀ {child parent other name name'}, Loose g child → Edge g parent name child →
    Edge g other name' child → parent = other ∧ name = name'
  tops : ∀ {root parent name}, root ∈ roots → Loose g root → ¬ Edge g parent name root
  trees : ∀ id vertex, g id = some vertex → ∃ tree, Shows g id tree

namespace Tree

variable [DecidableEq Name]

def label : Tree Name Label → Label
  | .node label _ => label

def branch : Tree Name Label → Name → Option (Tree Name Label)
  | .node _ below => below

def relabel (change : Label → Label) : Tree Name Label → Tree Name Label
  | .node label below => .node (change label) below

/-- The branch of this name becomes another one, or is taken away. -/
def graft (name : Name) (branch : Option (Tree Name Label)) : Tree Name Label → Tree Name Label
  | .node label below => .node label (Function.update below name branch)

/-- A change at the end of a way down. -/
def modify (change : Tree Name Label → Tree Name Label) : List Name → Tree Name Label → Tree Name Label
  | [], tree => change tree
  | name :: names, .node label below =>
      .node label (Function.update below name ((below name).map (modify change names)))

/-- The tree at the end of a way down. -/
def follow : List Name → Tree Name Label → Option (Tree Name Label)
  | [], tree => some tree
  | name :: names, .node _ below => (below name).bind (follow names)

theorem graft_same {name : Name} {branch : Option (Tree Name Label)} {tree : Tree Name Label}
    (same : tree.branch name = branch) : tree.graft name branch = tree := by
  cases tree with
  | node label below =>
      rw [← same, graft, Tree.branch, Function.update_eq_self]

omit [DecidableEq Name] in
theorem follow_concat (names : List Name) (name : Name) (tree : Tree Name Label) :
    tree.follow (names ++ [name]) = (tree.follow names).bind fun inner => inner.branch name := by
  induction names generalizing tree with
  | nil =>
      cases tree with
      | node label below =>
          rw [List.nil_append, follow, follow, Option.bind_some, branch]
          cases below name <;> rfl
  | cons first names ih =>
      cases tree with
      | node label below =>
          rw [List.cons_append, follow, follow, Option.bind_assoc]
          exact Option.bind_congr fun inner _ => ih inner

/-- Only the change of the tree at the end of the way counts. -/
theorem modify_congr {change change' : Tree Name Label → Tree Name Label} {inner : Tree Name Label} :
    ∀ (names : List Name) {tree : Tree Name Label}, tree.follow names = some inner →
      change inner = change' inner → tree.modify change names = tree.modify change' names
  | [], tree, found, same => by
      cases found
      exact same
  | name :: names, .node label below, found, same => by
      rw [follow] at found
      obtain ⟨branch, isBranch, found⟩ := Option.bind_eq_some_iff.mp found
      rw [modify, modify, isBranch, Option.map_some, Option.map_some, modify_congr names found same]

/-- A change that changes nothing. -/
theorem modify_same {change : Tree Name Label → Tree Name Label} {inner : Tree Name Label} :
    ∀ (names : List Name) {tree : Tree Name Label}, tree.follow names = some inner → change inner = inner →
      tree.modify change names = tree
  | [], tree, found, same => by
      cases found
      exact same
  | name :: names, .node label below, found, same => by
      rw [follow] at found
      obtain ⟨branch, isBranch, found⟩ := Option.bind_eq_some_iff.mp found
      rw [modify, isBranch, Option.map_some, modify_same names found same, ← isBranch, Function.update_eq_self]

end Tree

section Showing

theorem Edge.unique {parent child other : Id} {name : Name} (first : Edge g parent name child)
    (second : Edge g parent name other) : child = other := by
  obtain ⟨vertex, found, isChild⟩ := first
  obtain ⟨_, found', isOther⟩ := second
  rw [found] at found'
  cases found'
  exact Option.some.inj (isChild.symm.trans isOther)

theorem Shows.unique {id : Id} {first second : Tree Name Label} (one : Shows g id first)
    (two : Shows g id second) : first = second := by
  induction one generalizing second with
  | @node id vertex below found same shows ih =>
      cases two with
      | @node _ vertex' below' found' same' shows' =>
          rw [found] at found'
          cases found'
          congr 1
          funext name
          cases isBelow : below name with
          | none =>
              have none := same name
              rw [isBelow, ← same' name] at none
              exact (Option.isNone_iff_eq_none.mp (by simpa using none.symm)).symm
          | some tree =>
              have has := same name
              rw [isBelow] at has
              obtain ⟨child, isChild⟩ := Option.isSome_iff_exists.mp has.symm
              have has' := same' name
              rw [isChild] at has'
              obtain ⟨other, isOther⟩ := Option.isSome_iff_exists.mp has'
              rw [isOther, ih name child tree isChild isBelow (shows' name child other isChild isOther)]

/-- A tree is shown in every graph that agrees where it is reached. -/
theorem Shows.frame {id : Id} {tree : Tree Name Label} (shows : Shows g id tree) :
    (∀ other, Reach g id other → h other = g other) → Shows h id tree := by
  induction shows with
  | @node id vertex below found same shows ih =>
      intro agree
      refine .node ((agree id .refl).trans found) same fun name child tree isChild isBelow => ?_
      refine ih name child tree isChild isBelow fun other reach => agree other ?_
      exact .head ⟨name, vertex, found, isChild⟩ reach

theorem Shows.child {id child : Id} {name : Name} {tree : Tree Name Label} (shows : Shows g id tree)
    (edge : Edge g id name child) : ∃ inner, tree.branch name = some inner ∧ Shows g child inner := by
  obtain ⟨vertex, found, isChild⟩ := edge
  cases shows with
  | @node _ vertex' below found' same inside =>
      rw [found] at found'
      cases found'
      have has := same name
      rw [isChild] at has
      obtain ⟨inner, isBelow⟩ := Option.isSome_iff_exists.mp has
      exact ⟨inner, isBelow, inside name child inner isChild isBelow⟩

theorem Shows.edge_of_branch {id : Id} {name : Name} {tree inner : Tree Name Label} (shows : Shows g id tree)
    (isBranch : tree.branch name = some inner) : ∃ child, Edge g id name child ∧ Shows g child inner := by
  cases shows with
  | @node _ vertex below found same inside =>
      have has := same name
      rw [show below name = some inner from isBranch] at has
      obtain ⟨child, isChild⟩ := Option.isSome_iff_exists.mp has.symm
      exact ⟨child, ⟨vertex, found, isChild⟩, inside name child inner isChild isBranch⟩

theorem Shows.no_child {id : Id} {name : Name} {tree : Tree Name Label} (shows : Shows g id tree)
    (childless : ∀ child, ¬ Edge g id name child) : tree.branch name = none := by
  cases shows with
  | @node _ vertex below found same inside =>
      have missing : vertex.edge name = none :=
        Option.eq_none_iff_forall_ne_some.mpr fun child isChild => childless child ⟨vertex, found, isChild⟩
      have has := same name
      rw [missing] at has
      exact Option.isNone_iff_eq_none.mp (by simpa [Tree.branch] using has)

/-- A vertex whose children are shown stands for a tree. -/
theorem shows_of_children {id : Id} {vertex : Vertex Id Name Label} (found : g id = some vertex)
    (children : ∀ name child, vertex.edge name = some child → ∃ tree, Shows g child tree) :
    ∃ tree, Shows g id tree := by
  classical
  let below (name : Name) : Option (Tree Name Label) :=
    match isChild : vertex.edge name with
    | none => none
    | some child => some (children name child isChild).choose
  refine ⟨.node vertex.label below, .node found (fun name => ?_) fun name child tree isChild isBelow => ?_⟩
  · cases isChild : vertex.edge name with
    | none => simp only [below]; split <;> simp_all
    | some child => simp only [below]; split <;> simp_all
  · have unfolded : ∃ isChild : vertex.edge name = some child,
        some (children name child isChild).choose = some tree := by
      simp only [below] at isBelow
      split at isBelow
      · cases isBelow
      · next other isOther =>
          obtain rfl : other = child := Option.some.inj (isOther.symm.trans isChild)
          exact ⟨isOther, isBelow⟩
    obtain ⟨isChild, chosen⟩ := unfolded
    rw [← Option.some.inj chosen]
    exact (children name child isChild).choose_spec

theorem Shows.acc {id : Id} {tree : Tree Name Label} (shows : Shows g id tree) :
    Acc (fun child parent => ∃ name, Edge g parent name child) id := by
  induction shows with
  | @node id vertex below found same shows ih =>
      refine ⟨id, ?_⟩
      rintro child ⟨name, _, found', isChild⟩
      rw [found] at found'
      cases found'
      have has := same name
      rw [isChild] at has
      obtain ⟨tree, isBelow⟩ := Option.isSome_iff_exists.mp has
      exact ih name child tree isChild isBelow

theorem not_self_of_acc {α : Type} {relation : α → α → Prop} {element : α} (acc : Acc relation element) :
    ¬ relation element element := by
  induction acc with
  | intro element _ ih => exact fun loop => ih element loop loop

/-- There is no way back. -/
theorem Shows.acyclic {id child : Id} {name : Name} {tree : Tree Name Label} (shows : Shows g id tree)
    (edge : Edge g id name child) : ¬ Reach g child id := by
  intro back
  have cycle : Relation.TransGen (fun child parent => ∃ name, Edge g parent name child) id id := by
    have ahead : Relation.TransGen (fun parent child => ∃ name, Edge g parent name child) id id :=
      .head' ⟨name, edge⟩ back
    exact Relation.transGen_swap.mp ahead
  exact not_self_of_acc shows.acc.transGen cycle

/-- A vertex with the label and the children of another one stands for the same tree. -/
theorem Shows.copy {id other : Id} {vertex vertex' : Vertex Id Name Label} {tree : Tree Name Label}
    (shows : Shows g id tree) (found : g id = some vertex) (found' : g other = some vertex')
    (label : vertex'.label = vertex.label) (edge : vertex'.edge = vertex.edge) : Shows g other tree := by
  cases shows with
  | node present same inside =>
      rw [found] at present
      cases present
      rw [← label]
      rw [← edge] at same inside
      exact .node found' same inside

/-- Labels and edges make the tree. -/
theorem Shows.relate {id : Id} {tree : Tree Name Label} (shows : Shows g id tree)
    (alike : ∀ id vertex, g id = some vertex → ∃ vertex', h id = some vertex' ∧ vertex'.label = vertex.label ∧
      vertex'.edge = vertex.edge) : Shows h id tree := by
  induction shows with
  | @node id vertex below found same inside ih =>
      obtain ⟨vertex', found', label, edge⟩ := alike id vertex found
      rw [← label]
      rw [← edge] at same ih
      exact .node found' same ih

end Showing

section Ways

theorem Way.reach {top last : Id} {names : List Name} (way : Way g top names last) : Reach g top last := by
  induction way with
  | here => exact .refl
  | down edge _ ih => exact .head ⟨_, edge⟩ ih

theorem Way.append {top middle last : Id} {names more : List Name} (way : Way g top names middle)
    (rest : Way g middle more last) : Way g top (names ++ more) last := by
  induction way with
  | here => exact rest
  | down edge _ ih => exact .down edge (ih rest)

theorem exists_way {top last : Id} (reach : Reach g top last) : ∃ names, Way g top names last := by
  induction reach with
  | refl => exact ⟨[], .here top⟩
  | tail _ step ih =>
      obtain ⟨names, way⟩ := ih
      obtain ⟨name, edge⟩ := step
      exact ⟨names ++ [name], way.append (.down edge (.here _))⟩

theorem Way.follow [DecidableEq Name] {top last : Id} {names : List Name} (way : Way g top names last) :
    ∀ {tree : Tree Name Label}, Shows g top tree → ∃ inner, tree.follow names = some inner ∧ Shows g last inner := by
  induction way with
  | here => exact fun shows => ⟨_, rfl, shows⟩
  | down edge _ ih =>
      intro tree shows
      obtain ⟨branch, isBranch, inside⟩ := shows.child edge
      obtain ⟨inner, found, shown⟩ := ih inside
      cases tree with
      | node label below => exact ⟨inner, by rw [Tree.follow, show below _ = _ from isBranch]; exact found, shown⟩

end Ways

section Parents

variable {roots : Set Id} (forest : Forest g roots)
include forest

theorem Forest.loose_of_reach {top last : Id} (reach : Reach g top last) (loose : Loose g last) :
    Loose g top := by
  induction reach with
  | refl => exact loose
  | tail _ step ih =>
      obtain ⟨name, edge⟩ := step
      exact ih (forest.freezes edge loose)

/-- The vertices above a loose one stand in a line. -/
theorem Forest.above {first second last : Id} (one : Reach g first last) (loose : Loose g last)
    (two : Reach g second last) : Reach g first second ∨ Reach g second first := by
  induction one with
  | refl => exact Or.inr two
  | @tail middle last earlier step ih =>
      obtain ⟨name, edge⟩ := step
      rcases Relation.ReflTransGen.cases_tail two with rfl | ⟨other, reach, name', edge'⟩
      · exact Or.inl (earlier.tail ⟨name, edge⟩)
      · obtain ⟨rfl, -⟩ := forest.single loose edge edge'
        exact ih (forest.freezes edge loose) reach

/-- A loose vertex is below one root only. -/
theorem Forest.root_unique {first second last : Id} (isFirst : first ∈ roots) (isSecond : second ∈ roots)
    (loose : Loose g last) (one : Reach g first last) (two : Reach g second last) : first = second := by
  have apart {upper lower : Id} (isLower : lower ∈ roots) (isLoose : Loose g lower)
      (reach : Reach g upper lower) : upper = lower := by
    rcases Relation.ReflTransGen.cases_tail reach with same | ⟨other, -, name, edge⟩
    · exact same.symm
    · exact absurd edge (forest.tops isLower isLoose)
  rcases forest.above one loose two with reach | reach
  · exact apart isSecond (forest.loose_of_reach two loose) reach
  · exact (apart isFirst (forest.loose_of_reach one loose) reach).symm

/-- A loose vertex is below one branch only. -/
theorem Forest.branch_unique {parent first second last : Id} {name name' : Name} (loose : Loose g last)
    (edge : Edge g parent name first) (edge' : Edge g parent name' second) (one : Reach g first last)
    (two : Reach g second last) : name = name' := by
  have isLoose : Loose g parent := forest.loose_of_reach (.head ⟨name, edge⟩ one) loose
  obtain ⟨vertex, found, -⟩ := isLoose
  obtain ⟨tree, shows⟩ := forest.trees parent vertex found
  have apart {upper lower : Id} {name name' : Name} (edge : Edge g parent name upper)
      (edge' : Edge g parent name' lower) (lowerLoose : Loose g lower) (reach : Reach g upper lower) :
      name = name' := by
    rcases Relation.ReflTransGen.cases_tail reach with rfl | ⟨other, before, name'', edge''⟩
    · exact (forest.single lowerLoose edge edge').2
    · obtain ⟨rfl, -⟩ := forest.single lowerLoose edge' edge''
      exact absurd before (shows.acyclic edge)
  rcases forest.above one loose two with reach | reach
  · exact apart edge edge' (forest.loose_of_reach two loose) reach
  · exact (apart edge' edge (forest.loose_of_reach one loose) reach).symm

/-- A new root is frozen, or nothing leads to it. -/
theorem Forest.reroot {tops : Set Id}
    (free : ∀ root ∈ tops, root ∈ roots ∨ (Loose g root → ∀ parent name, ¬ Edge g parent name root)) :
    Forest g tops :=
  ⟨forest.closed, forest.freezes, forest.single, fun {root parent name} isRoot loose edge => by
    rcases free root isRoot with old | none
    · exact forest.tops old loose edge
    · exact none loose parent name edge, forest.trees⟩

end Parents

section Attaching

variable {roots : Set Id}

/-- A vertex that may become a child of the parent. If it can be changed, nothing else holds it. -/
structure Attachable (g : Graph Id Name Label) (roots : Set Id) (parent child : Id) : Prop where
  there : ∃ vertex, g child = some vertex
  apart : ¬ Reach g child parent
  free : Loose g child → child ∉ roots ∧ ∀ other name, ¬ Edge g other name child

theorem Forest.reach_frozen (forest : Forest g roots) {top last : Id} (frozen : ¬ Loose g top)
    (reach : Reach g top last) : ¬ Loose g last :=
  fun loose => frozen (forest.loose_of_reach reach loose)

/-- A frozen vertex may be attached anywhere. -/
theorem Forest.attachable (forest : Forest g roots) {parent child : Id} (there : ∃ vertex, g child = some vertex)
    (frozen : ¬ Loose g child) (loose : Loose g parent) : Attachable g roots parent child :=
  ⟨there, fun reach => forest.reach_frozen frozen reach loose, fun isLoose => absurd isLoose frozen⟩

end Attaching

section Relabelling

variable {roots : Set Id}

/-- The vertices have the same children, and the same ones are frozen. -/
structure Alike (g h : Graph Id Name Label) : Prop where
  kept : ∀ id vertex, g id = some vertex → ∃ vertex', h id = some vertex' ∧
    vertex'.frozen = vertex.frozen ∧ vertex'.edge = vertex.edge
  old : ∀ id vertex, h id = some vertex → ∃ vertex', g id = some vertex'

theorem Alike.edge (alike : Alike g h) {parent child : Id} {name : Name} :
    Edge h parent name child ↔ Edge g parent name child := by
  constructor
  · rintro ⟨vertex, found, isChild⟩
    obtain ⟨old, present⟩ := alike.old parent vertex found
    obtain ⟨_, found', -, edge⟩ := alike.kept parent old present
    rw [found] at found'
    cases found'
    exact ⟨old, present, edge ▸ isChild⟩
  · rintro ⟨vertex, found, isChild⟩
    obtain ⟨vertex', found', -, edge⟩ := alike.kept parent vertex found
    exact ⟨vertex', found', edge.symm ▸ isChild⟩

theorem Alike.loose (alike : Alike g h) {id : Id} : Loose h id ↔ Loose g id := by
  constructor
  · rintro ⟨vertex, found, flag⟩
    obtain ⟨old, present⟩ := alike.old id vertex found
    obtain ⟨_, found', frozen, -⟩ := alike.kept id old present
    rw [found] at found'
    cases found'
    exact ⟨old, present, frozen ▸ flag⟩
  · rintro ⟨vertex, found, flag⟩
    obtain ⟨vertex', found', frozen, -⟩ := alike.kept id vertex found
    exact ⟨vertex', found', frozen.trans flag⟩

theorem Alike.shows (alike : Alike g h) {id : Id} {tree : Tree Name Label} (shows : Shows g id tree) :
    ∃ tree', Shows h id tree' := by
  induction shows with
  | @node id vertex below found same inside ih =>
      obtain ⟨vertex', found', -, edge⟩ := alike.kept id vertex found
      refine shows_of_children found' fun name child isChild => ?_
      rw [edge] at isChild
      have has := same name
      rw [isChild] at has
      obtain ⟨tree, isBelow⟩ := Option.isSome_iff_exists.mp has
      exact ih name child tree isChild isBelow

/-- Labels play no part. -/
theorem Forest.relabeled (forest : Forest g roots) (alike : Alike g h) : Forest h roots := by
  refine ⟨?_, ?_, ?_, ?_, ?_⟩
  · intro parent name child edge
    obtain ⟨vertex, found⟩ := forest.closed (alike.edge.mp edge)
    obtain ⟨vertex', found', -⟩ := alike.kept child vertex found
    exact ⟨vertex', found'⟩
  · exact fun edge loose => alike.loose.mpr (forest.freezes (alike.edge.mp edge) (alike.loose.mp loose))
  · exact fun loose first second =>
      forest.single (alike.loose.mp loose) (alike.edge.mp first) (alike.edge.mp second)
  · exact fun isRoot loose edge => forest.tops isRoot (alike.loose.mp loose) (alike.edge.mp edge)
  · intro id vertex found
    obtain ⟨old, present⟩ := alike.old id vertex found
    obtain ⟨tree, shows⟩ := forest.trees id old present
    exact alike.shows shows

end Relabelling

section Updating

variable [DecidableEq Id]

theorem edge_update_ne {changed parent child : Id} {name : Name} {vertex : Option (Vertex Id Name Label)}
    (distinct : parent ≠ changed) :
    Edge (Function.update g changed vertex) parent name child ↔ Edge g parent name child := by
  unfold Edge
  rw [Function.update_of_ne distinct]

theorem edge_update_self {changed child : Id} {name : Name} {vertex : Vertex Id Name Label} :
    Edge (Function.update g changed (some vertex)) changed name child ↔ vertex.edge name = some child := by
  unfold Edge
  rw [Function.update_self]
  constructor
  · rintro ⟨_, ⟨⟩, isChild⟩
    exact isChild
  · exact fun isChild => ⟨vertex, rfl, isChild⟩

/-- What does not lead to the changed vertex stands for the same tree. -/
theorem Shows.off {id changed : Id} {tree : Tree Name Label} (shows : Shows g id tree)
    (vertex : Option (Vertex Id Name Label)) (apart : ¬ Reach g id changed) :
    Shows (Function.update g changed vertex) id tree := by
  refine shows.frame fun other reach => Function.update_of_ne ?_ _ _
  rintro rfl
  exact apart reach

variable {roots : Set Id}

/-- What leads to the changed vertex stands for a tree that is changed there. -/
theorem Forest.modifies [DecidableEq Name] (forest : Forest g roots) {changed : Id} (loose : Loose g changed)
    {vertex : Vertex Id Name Label} {tree' : Tree Name Label}
    (shows' : Shows (Function.update g changed (some vertex)) changed tree') {top : Id} {names : List Name}
    (way : Way g top names changed) :
    ∀ {tree : Tree Name Label}, Shows g top tree →
      Shows (Function.update g changed (some vertex)) top (tree.modify (fun _ => tree') names) := by
  induction way with
  | here => exact fun _ => shows'
  | @down parent child last name names edge rest ih =>
      intro tree shows
      have distinct : parent ≠ last := by
        rintro rfl
        exact shows.acyclic edge rest.reach
      cases shows with
      | @node _ above below found same inside =>
          refine .node ((Function.update_of_ne distinct _ _).trans found) (fun other => ?_)
            fun other next tree isNext isBelow => ?_
          · rw [← same other]
            by_cases isName : other = name
            · rw [isName, Function.update_self, Option.isSome_map]
            · rw [Function.update_of_ne isName]
          · have nextEdge : Edge g parent other next := ⟨above, found, isNext⟩
            by_cases isName : other = name
            · subst isName
              obtain rfl := nextEdge.unique edge
              rw [Function.update_self] at isBelow
              obtain ⟨branch, isBranch, rfl⟩ := Option.map_eq_some_iff.mp isBelow
              exact ih loose shows' (inside other next branch isNext isBranch)
            · rw [Function.update_of_ne isName] at isBelow
              refine (inside other next tree isNext isBelow).off _ fun reach => isName ?_
              exact forest.branch_unique loose nextEdge edge reach rest.reach

section Revision

variable {changed : Id} {vertex vertex' : Vertex Id Name Label}

theorem loose_revise (found : g changed = some vertex) (loose : vertex.frozen = false)
    (loose' : vertex'.frozen = false) {id : Id} :
    Loose (Function.update g changed (some vertex')) id ↔ Loose g id := by
  unfold Loose
  by_cases same : id = changed
  · subst same
    rw [Function.update_self]
    exact ⟨fun _ => ⟨vertex, found, loose⟩, fun _ => ⟨vertex', rfl, loose'⟩⟩
  · rw [Function.update_of_ne same]

/-- A loose vertex may lose children, or get one that is attachable. -/
theorem Forest.revise [DecidableEq Name] (forest : Forest g roots) (found : g changed = some vertex)
    (loose : vertex.frozen = false) (loose' : vertex'.frozen = false) {name : Name}
    (children : ∀ other child, vertex'.edge other = some child → vertex.edge other = some child ∨
      other = name ∧ Attachable g roots changed child) :
    Forest (Function.update g changed (some vertex')) roots := by
  have isLoose : Loose g changed := ⟨vertex, found, loose⟩
  have edges {parent child : Id} {other : Name}
      (edge : Edge (Function.update g changed (some vertex')) parent other child) :
      Edge g parent other child ∨ parent = changed ∧ other = name ∧ Attachable g roots changed child := by
    by_cases same : parent = changed
    · subst same
      rw [edge_update_self] at edge
      rcases children other child edge with old | ⟨isName, attachable⟩
      · exact Or.inl ⟨vertex, found, old⟩
      · exact Or.inr ⟨rfl, isName, attachable⟩
    · exact Or.inl ((edge_update_ne same).mp edge)
  have kept {id : Id} (there : ∃ other, g id = some other) :
      ∃ other, Function.update g changed (some vertex') id = some other := by
    by_cases same : id = changed
    · exact ⟨vertex', by rw [same, Function.update_self]⟩
    · rw [Function.update_of_ne same]
      exact there
  have shown : ∃ tree, Shows (Function.update g changed (some vertex')) changed tree := by
    refine shows_of_children (Function.update_self _ _ _) fun other child isChild => ?_
    rcases children other child isChild with old | ⟨-, attachable⟩
    · have edge : Edge g changed other child := ⟨vertex, found, old⟩
      obtain ⟨next, there⟩ := forest.closed edge
      obtain ⟨above, shows⟩ := forest.trees changed vertex found
      obtain ⟨tree, inside⟩ := forest.trees child next there
      exact ⟨tree, inside.off _ (shows.acyclic edge)⟩
    · obtain ⟨next, there⟩ := attachable.there
      obtain ⟨tree, inside⟩ := forest.trees child next there
      exact ⟨tree, inside.off _ attachable.apart⟩
  refine ⟨?_, ?_, ?_, ?_, ?_⟩
  · intro parent other child edge
    rcases edges edge with old | ⟨-, -, attachable⟩
    · exact kept (forest.closed old)
    · exact kept attachable.there
  · intro parent other child edge childLoose
    rw [loose_revise found loose loose'] at childLoose ⊢
    rcases edges edge with old | ⟨rfl, -, -⟩
    · exact forest.freezes old childLoose
    · exact isLoose
  · intro child parent other name₁ name₂ childLoose first second
    rw [loose_revise found loose loose'] at childLoose
    rcases edges first with old | ⟨isChanged, isName, attachable⟩
    · rcases edges second with old' | ⟨-, -, attachable⟩
      · exact forest.single childLoose old old'
      · exact absurd old ((attachable.free childLoose).2 _ _)
    · rcases edges second with old' | ⟨isChanged', isName', -⟩
      · exact absurd old' ((attachable.free childLoose).2 _ _)
      · exact ⟨isChanged.trans isChanged'.symm, isName.trans isName'.symm⟩
  · intro root parent other isRoot rootLoose edge
    rw [loose_revise found loose loose'] at rootLoose
    rcases edges edge with old | ⟨-, -, attachable⟩
    · exact forest.tops isRoot rootLoose old
    · exact (attachable.free rootLoose).1 isRoot
  · intro id other present
    by_cases reach : Reach g id changed
    · obtain ⟨tree', shows'⟩ := shown
      obtain ⟨names, way⟩ := exists_way reach
      obtain ⟨before, there⟩ : ∃ before, g id = some before := by
        obtain ⟨before, there, -⟩ := forest.loose_of_reach reach isLoose
        exact ⟨before, there⟩
      obtain ⟨tree, shows⟩ := forest.trees id before there
      exact ⟨_, forest.modifies isLoose shows' way shows⟩
    · have distinct : id ≠ changed := by
        rintro rfl
        exact reach .refl
      rw [Function.update_of_ne distinct] at present
      obtain ⟨tree, shows⟩ := forest.trees id other present
      exact ⟨tree, shows.off _ reach⟩

/-- The tree of a vertex whose branch of one name becomes another one, or goes. -/
theorem Shows.graft [DecidableEq Name] {tree : Tree Name Label} (shows : Shows g changed tree) {label : Label}
    (found : g changed = some vertex) {name : Name} {entry : Option Id} {inner : Option (Tree Name Label)}
    (isLabel : vertex'.label = label) (isEdge : vertex'.edge = Function.update vertex.edge name entry)
    (same : inner.isSome = entry.isSome)
    (inside : ∀ child branch, entry = some child → inner = some branch → Shows g child branch ∧
      ¬ Reach g child changed) :
    Shows (Function.update g changed (some vertex')) changed
      ((tree.relabel fun _ => label).graft name inner) := by
  have whole := shows
  cases shows with
  | @node _ _ below found' alike below_shows =>
      rw [found] at found'
      cases found'
      rw [← isLabel]
      refine .node (Function.update_self _ _ _) (fun other => ?_) fun other child branch isChild isBranch => ?_
      · rw [isEdge]
        by_cases isName : other = name
        · rw [isName, Function.update_self, Function.update_self]
          exact same
        · rw [Function.update_of_ne isName, Function.update_of_ne isName]
          exact alike other
      · rw [isEdge] at isChild
        by_cases isName : other = name
        · rw [isName, Function.update_self] at isChild isBranch
          obtain ⟨shown, apart⟩ := inside child branch isChild isBranch
          exact shown.off _ apart
        · rw [Function.update_of_ne isName] at isChild isBranch
          exact (below_shows other child branch isChild isBranch).off _
            (whole.acyclic ⟨vertex, found, isChild⟩)

/-- A way to the changed vertex is still there. -/
theorem Way.update (way : Way g top names changed) {tree : Tree Name Label} (shows : Shows g top tree)
    (vertex : Option (Vertex Id Name Label)) : Way (Function.update g changed vertex) top names changed := by
  induction way generalizing tree with
  | here => exact .here _
  | @down parent child last name names edge rest ih =>
      have distinct : parent ≠ last := by
        rintro rfl
        exact shows.acyclic edge rest.reach
      obtain ⟨inner, -, inside⟩ := shows.child edge
      exact .down ((edge_update_ne distinct).mpr edge) (ih inside)

/-- What a change of one vertex does to the trees. -/
structure Modifies [DecidableEq Name] (g h : Graph Id Name Label) (changed : Id)
    (change : Tree Name Label → Tree Name Label) : Prop where
  apart : ∀ {id tree}, Shows g id tree → ¬ Reach g id changed → Shows h id tree
  along : ∀ {top names tree}, Way g top names changed → Shows g top tree → Shows h top (tree.modify change names)
  ways : ∀ {top names}, Way g top names changed → Way h top names changed

theorem Forest.modified [DecidableEq Name] (forest : Forest g roots) (found : g changed = some vertex)
    (loose : vertex.frozen = false) {change : Tree Name Label → Tree Name Label}
    (here : ∀ tree, Shows g changed tree →
      Shows (Function.update g changed (some vertex')) changed (change tree)) :
    Modifies g (Function.update g changed (some vertex')) changed change := by
  have isLoose : Loose g changed := ⟨vertex, found, loose⟩
  refine ⟨fun shows apart => shows.off _ apart, fun {top names tree} way shows => ?_, fun {top names} way => ?_⟩
  · obtain ⟨inner, follows, inside⟩ := way.follow shows
    have after := forest.modifies isLoose (here inner inside) way shows
    have same : tree.modify (fun _ => change inner) names = tree.modify change names :=
      Tree.modify_congr names follows rfl
    exact same ▸ after
  · obtain ⟨above, present, -⟩ := forest.loose_of_reach way.reach isLoose
    obtain ⟨tree, shows⟩ := forest.trees top above present
    exact way.update shows _

omit [DecidableEq Id] in
/-- Where the change changes nothing, all trees are as before. -/
theorem Modifies.unchanged [DecidableEq Name] {h : Graph Id Name Label}
    {change : Tree Name Label → Tree Name Label} (modifies : Modifies g h changed change)
    (same : ∀ tree, Shows g changed tree → change tree = tree) {id : Id} {tree : Tree Name Label}
    (shows : Shows g id tree) : Shows h id tree := by
  by_cases reach : Reach g id changed
  · obtain ⟨names, way⟩ := exists_way reach
    obtain ⟨inner, follows, inside⟩ := way.follow shows
    have after := modifies.along way shows
    rwa [Tree.modify_same names follows (same inner inside)] at after
  · exact modifies.apart shows reach

/-- The branch of a loose vertex becomes another one, or goes. -/
theorem Forest.graft [DecidableEq Name] (forest : Forest g roots) (found : g changed = some vertex)
    (loose : vertex.frozen = false) {name : Name} {entry : Option Id} {inner : Option (Tree Name Label)}
    (same : inner.isSome = entry.isSome)
    (attached : ∀ child, entry = some child → Attachable g roots changed child)
    (inside : ∀ child branch, entry = some child → inner = some branch → Shows g child branch) :
    Forest (Function.update g changed (some { vertex with edge := Function.update vertex.edge name entry })) roots ∧
      Modifies g (Function.update g changed (some { vertex with edge := Function.update vertex.edge name entry }))
        changed (Tree.graft name inner) := by
  constructor
  · have children (other : Name) (child : Id) (isChild : Function.update vertex.edge name entry other = some child) :
        vertex.edge other = some child ∨ other = name ∧ Attachable g roots changed child := by
      by_cases isName : other = name
      · subst isName
        rw [Function.update_self] at isChild
        exact Or.inr ⟨rfl, attached child isChild⟩
      · rw [Function.update_of_ne isName] at isChild
        exact Or.inl isChild
    exact forest.revise found loose loose children
  · refine forest.modified found loose fun tree shows => ?_
    have grafted : Shows (Function.update g changed
        (some { vertex with edge := Function.update vertex.edge name entry })) changed
        ((tree.relabel fun _ => vertex.label).graft name inner) :=
      shows.graft found rfl rfl same fun child branch isChild isBranch =>
        ⟨inside child branch isChild isBranch, (attached child isChild).apart⟩
    cases shows with
    | node present _ _ =>
        rw [found] at present
        cases present
        exact grafted

/-- A loose vertex gets another label. -/
theorem Forest.relabel [DecidableEq Name] (forest : Forest g roots) (found : g changed = some vertex)
    (loose : vertex.frozen = false) (label : Label) :
    Modifies g (Function.update g changed (some { vertex with label := label })) changed
      (Tree.relabel fun _ => label) := by
  refine forest.modified found loose fun tree shows => ?_
  have whole := shows
  cases shows with
  | @node _ _ below present same inside =>
      rw [found] at present
      cases present
      exact .node (Function.update_self _ _ _) same fun name child branch isChild isBranch =>
        (inside name child branch isChild isBranch).off _ (whole.acyclic ⟨vertex, found, isChild⟩)

end Revision

/-- A new vertex has frozen children, and nothing leads to it. -/
theorem Forest.add (forest : Forest g roots) {new : Id} {vertex : Vertex Id Name Label}
    (free : g new = none) (loose : vertex.frozen = false)
    (children : ∀ name child, vertex.edge name = some child → (∃ other, g child = some other) ∧ ¬ Loose g child) :
    Forest (Function.update g new (some vertex)) roots ∧ ∀ {id tree}, Shows g id tree →
      Shows (Function.update g new (some vertex)) id tree := by
  have apart {id : Id} (there : ∃ other, g id = some other) : ¬ Reach g id new := by
    intro reach
    rcases Relation.ReflTransGen.cases_tail reach with rfl | ⟨parent, -, name, edge⟩
    · obtain ⟨other, present⟩ := there
      rw [free] at present
      cases present
    · obtain ⟨other, present⟩ := forest.closed edge
      rw [free] at present
      cases present
  have shown {id : Id} {tree : Tree Name Label} (shows : Shows g id tree) :
      Shows (Function.update g new (some vertex)) id tree := by
    refine shows.off _ (apart ?_)
    cases shows with
    | node found _ _ => exact ⟨_, found⟩
  have edges {parent child : Id} {name : Name}
      (edge : Edge (Function.update g new (some vertex)) parent name child) :
      Edge g parent name child ∨ parent = new ∧ vertex.edge name = some child := by
    by_cases same : parent = new
    · subst same
      exact Or.inr ⟨rfl, edge_update_self.mp edge⟩
    · exact Or.inl ((edge_update_ne same).mp edge)
  have kept {id : Id} (there : ∃ other, g id = some other) :
      Function.update g new (some vertex) id = g id := by
    refine Function.update_of_ne ?_ _ _
    rintro rfl
    exact apart there .refl
  have looseKept {id : Id} (there : ∃ other, g id = some other)
      (isLoose : Loose (Function.update g new (some vertex)) id) : Loose g id := by
    unfold Loose at isLoose
    rw [kept there] at isLoose
    exact isLoose
  refine ⟨⟨?_, ?_, ?_, ?_, ?_⟩, shown⟩
  · intro parent name child edge
    have there : ∃ other, g child = some other := by
      rcases edges edge with old | ⟨-, isChild⟩
      · exact forest.closed old
      · exact (children name child isChild).1
    rw [kept there]
    exact there
  · intro parent name child edge childLoose
    rcases edges edge with old | ⟨rfl, isChild⟩
    · obtain ⟨above, found, flag⟩ := forest.freezes old (looseKept (forest.closed old) childLoose)
      exact ⟨above, (kept ⟨above, found⟩).trans found, flag⟩
    · exact ⟨vertex, Function.update_self _ _ _, loose⟩
  · intro child parent other name name' childLoose first second
    rcases edges first with old | ⟨-, isChild⟩
    · rcases edges second with old' | ⟨-, isChild⟩
      · exact forest.single (looseKept (forest.closed old) childLoose) old old'
      · obtain ⟨there, frozen⟩ := children name' child isChild
        exact absurd (looseKept there childLoose) frozen
    · obtain ⟨there, frozen⟩ := children name child isChild
      exact absurd (looseKept there childLoose) frozen
  · intro root parent name isRoot rootLoose edge
    rcases edges edge with old | ⟨-, isChild⟩
    · exact forest.tops isRoot (looseKept (forest.closed old) rootLoose) old
    · obtain ⟨there, frozen⟩ := children name root isChild
      exact frozen (looseKept there rootLoose)
  · intro id other present
    by_cases same : id = new
    · subst same
      refine shows_of_children (Function.update_self _ _ _) fun name child isChild => ?_
      obtain ⟨next, there⟩ := (children name child isChild).1
      obtain ⟨tree, shows⟩ := forest.trees child next there
      exact ⟨tree, shown shows⟩
    · rw [Function.update_of_ne same] at present
      obtain ⟨tree, shows⟩ := forest.trees id other present
      exact ⟨tree, shown shows⟩

end Updating

section Removal

variable {roots : Set Id} {lost : Set Id} [DecidablePred (· ∈ lost)]

def without (g : Graph Id Name Label) (lost : Set Id) [DecidablePred (· ∈ lost)] : Graph Id Name Label :=
  fun id => if id ∈ lost then none else g id

/-- Vertices are removed together with all that lead to them. -/
theorem Forest.remove (forest : Forest g roots) {left : Set Id} (fewer : left ⊆ roots)
    (parents : ∀ {parent name child}, Edge g parent name child → child ∈ lost → parent ∈ lost) :
    Forest (without g lost) left ∧ ∀ {id tree}, id ∉ lost → Shows g id tree → Shows (without g lost) id tree := by
  have present {id : Id} {vertex : Vertex Id Name Label} (found : without g lost id = some vertex) :
      id ∉ lost ∧ g id = some vertex := by
    rw [without] at found
    split at found
    · cases found
    · next outside => exact ⟨outside, found⟩
  have edges {parent child : Id} {name : Name} (edge : Edge (without g lost) parent name child) :
      parent ∉ lost ∧ Edge g parent name child := by
    obtain ⟨vertex, found, isChild⟩ := edge
    exact ⟨(present found).1, vertex, (present found).2, isChild⟩
  have loose {id : Id} (isLoose : Loose (without g lost) id) : Loose g id := by
    obtain ⟨vertex, found, flag⟩ := isLoose
    exact ⟨vertex, (present found).2, flag⟩
  have reaches {top last : Id} (reach : Reach g top last) (outside : top ∉ lost) : last ∉ lost := by
    induction reach with
    | refl => exact outside
    | tail _ step ih =>
        obtain ⟨name, edge⟩ := step
        exact fun member => ih (parents edge member)
  have shown {id : Id} {tree : Tree Name Label} (outside : id ∉ lost) (shows : Shows g id tree) :
      Shows (without g lost) id tree :=
    shows.frame fun other reach => if_neg (reaches reach outside)
  refine ⟨⟨?_, ?_, ?_, ?_, ?_⟩, shown⟩
  · intro parent name child edge
    obtain ⟨outside, old⟩ := edges edge
    obtain ⟨vertex, found⟩ := forest.closed old
    exact ⟨vertex, (if_neg fun member => outside (parents old member)).trans found⟩
  · intro parent name child edge childLoose
    obtain ⟨outside, old⟩ := edges edge
    obtain ⟨vertex, found, flag⟩ := forest.freezes old (loose childLoose)
    exact ⟨vertex, (if_neg outside).trans found, flag⟩
  · exact fun childLoose first second => forest.single (loose childLoose) (edges first).2 (edges second).2
  · exact fun isRoot rootLoose edge => forest.tops (fewer isRoot) (loose rootLoose) (edges edge).2
  · intro id vertex found
    obtain ⟨outside, old⟩ := present found
    obtain ⟨tree, shows⟩ := forest.trees id vertex old
    exact ⟨tree, shown outside shows⟩

end Removal

section Freezing

variable {roots : Set Id} {cold : Set Id} [DecidablePred (· ∈ cold)]

def freezing (g : Graph Id Name Label) (cold : Set Id) [DecidablePred (· ∈ cold)] : Graph Id Name Label :=
  fun id => (g id).map fun vertex => if id ∈ cold then { vertex with frozen := true } else vertex

/-- Vertices are frozen together with all below them. -/
theorem Forest.freeze (forest : Forest g roots)
    (children : ∀ {parent name child}, parent ∈ cold → Edge g parent name child → Loose g child → child ∈ cold) :
    Forest (freezing g cold) roots ∧ ∀ {id tree}, Shows g id tree → Shows (freezing g cold) id tree := by
  have alike (id : Id) (vertex : Vertex Id Name Label) (found : g id = some vertex) :
      ∃ vertex', freezing g cold id = some vertex' ∧ vertex'.label = vertex.label ∧
        vertex'.edge = vertex.edge := by
    refine ⟨if id ∈ cold then { vertex with frozen := true } else vertex, ?_, ?_, ?_⟩
    · rw [freezing, found]
      rfl
    · split <;> rfl
    · split <;> rfl
  have edges {parent child : Id} {name : Name} (edge : Edge (freezing g cold) parent name child) :
      Edge g parent name child := by
    obtain ⟨vertex, found, isChild⟩ := edge
    obtain ⟨old, present, rfl⟩ := Option.map_eq_some_iff.mp found
    refine ⟨old, present, ?_⟩
    split at isChild <;> exact isChild
  have loose {id : Id} : Loose (freezing g cold) id ↔ id ∉ cold ∧ Loose g id := by
    constructor
    · rintro ⟨vertex, found, flag⟩
      obtain ⟨old, present, rfl⟩ := Option.map_eq_some_iff.mp found
      split at flag
      · cases flag
      · next outside => exact ⟨outside, old, present, flag⟩
    · rintro ⟨outside, old, present, flag⟩
      exact ⟨old, by rw [freezing, present, Option.map_some, if_neg outside], flag⟩
  have shown {id : Id} {tree : Tree Name Label} (shows : Shows g id tree) : Shows (freezing g cold) id tree :=
    shows.relate alike
  refine ⟨⟨?_, ?_, ?_, ?_, ?_⟩, shown⟩
  · intro parent name child edge
    obtain ⟨vertex, found⟩ := forest.closed (edges edge)
    obtain ⟨vertex', found', -⟩ := alike child vertex found
    exact ⟨vertex', found'⟩
  · intro parent name child edge childLoose
    obtain ⟨outside, isLoose⟩ := loose.mp childLoose
    exact loose.mpr ⟨fun member => outside (children member (edges edge) isLoose),
      forest.freezes (edges edge) isLoose⟩
  · exact fun childLoose first second => forest.single (loose.mp childLoose).2 (edges first) (edges second)
  · exact fun isRoot rootLoose edge => forest.tops isRoot (loose.mp rootLoose).2 (edges edge)
  · intro id vertex found
    obtain ⟨old, present, -⟩ := Option.map_eq_some_iff.mp found
    obtain ⟨tree, shows⟩ := forest.trees id old present
    exact ⟨tree, shown shows⟩

end Freezing

section Visiting

variable {roots : Set Id} {State : Type} {visit : Nat → Id → State → State → Prop}

/-- What can be changed at a vertex and below it. -/
def looseBelow (g : Graph Id Name Label) (id : Id) : Set Id := {last | Loose g last ∧ Reach g id last}

def looseUnder (g : Graph Id Name Label) (children : List (Name × Id)) : Set Id :=
  {last | ∃ name child, (name, child) ∈ children ∧ last ∈ looseBelow g child}

/-- The children are visited in turn. -/
inductive Visits (visit : Id → State → State → Prop) : List (Name × Id) → State → State → Prop where
  | nil (state : State) : Visits visit [] state state
  | cons {name : Name} {child : Id} {rest : List (Name × Id)} {state middle next : State}
      (first : visit child state middle) (others : Visits visit rest middle next) :
      Visits visit ((name, child) :: rest) state next

/-- The list names all children of the vertex, each name once. -/
structure ListsChildren (g : Graph Id Name Label) (id : Id) (children : List (Name × Id)) : Prop where
  nodup : (children.map Prod.fst).Nodup
  mem : ∀ {name child}, (name, child) ∈ children ↔ Edge g id name child

theorem looseUnder_cons (name : Name) (child : Id) (rest : List (Name × Id)) :
    looseUnder g ((name, child) :: rest) = looseBelow g child ∪ looseUnder g rest := by
  ext last
  constructor
  · rintro ⟨other, below, member, isBelow⟩
    rcases List.mem_cons.mp member with same | later
    · cases same
      exact Or.inl isBelow
    · exact Or.inr ⟨other, below, later, isBelow⟩
  · rintro (isBelow | ⟨other, below, later, isBelow⟩)
    · exact ⟨name, child, List.mem_cons_self, isBelow⟩
    · exact ⟨other, below, List.mem_cons_of_mem _ later, isBelow⟩

theorem looseBelow_loose {id : Id} {children : List (Name × Id)} (loose : Loose g id)
    (lists : ListsChildren g id children) : looseBelow g id = insert id (looseUnder g children) := by
  ext last
  constructor
  · rintro ⟨isLoose, reach⟩
    rcases Relation.ReflTransGen.cases_head reach with rfl | ⟨child, ⟨name, edge⟩, rest⟩
    · exact Or.inl rfl
    · exact Or.inr ⟨name, child, lists.mem.mpr edge, isLoose, rest⟩
  · rintro (rfl | ⟨name, child, member, isLoose, reach⟩)
    · exact ⟨loose, .refl⟩
    · exact ⟨isLoose, .head ⟨name, lists.mem.mp member⟩ reach⟩

/-- A vertex is not among what is below it, and with it this is all that can be changed. -/
theorem looseUnder_fresh (forest : Forest g roots) {taken : Set Id} {id : Id} {children : List (Name × Id)}
    (loose : Loose g id) (lists : ListsChildren g id children) (outside : id ∉ taken) :
    id ∉ taken ∪ looseUnder g children ∧ insert id (taken ∪ looseUnder g children) = taken ∪ looseBelow g id := by
  constructor
  · rintro (member | ⟨name, child, member, -, reach⟩)
    · exact outside member
    · obtain ⟨vertex, found, -⟩ := loose
      obtain ⟨tree, shows⟩ := forest.trees id vertex found
      exact shows.acyclic (lists.mem.mp member) reach
  · rw [looseBelow_loose loose lists, Set.union_insert]

theorem Forest.looseBelow_frozen (forest : Forest g roots) {id : Id} (frozen : ¬ Loose g id) :
    looseBelow g id = ∅ :=
  Set.eq_empty_of_forall_notMem fun _ ⟨isLoose, reach⟩ => forest.reach_frozen frozen reach isLoose

/-- What leads to something that can be changed below a root is itself below it. -/
theorem Forest.above_loose (forest : Forest g roots) {root above below : Id} {name : Name} (isRoot : root ∈ roots)
    (edge : Edge g above name below) (member : below ∈ looseBelow g root) : above ∈ looseBelow g root := by
  obtain ⟨loose, reach⟩ := member
  refine ⟨forest.freezes edge loose, ?_⟩
  rcases Relation.ReflTransGen.cases_tail reach with rfl | ⟨middle, earlier, _, other⟩
  · exact absurd edge (forest.tops isRoot loose)
  · obtain ⟨rfl, -⟩ := forest.single loose edge other
    exact earlier

/-- A visit to a vertex passes over a frozen one. Else it visits the children and then takes the vertex itself.
The fuel runs down. -/
def Takes (g : Graph Id Name Label) (visit : Nat → Id → State → State → Prop)
    (done : Set Id → State → Prop) : Prop :=
  ∀ fuel id taken state next, done taken state → id ∉ taken → visit fuel id state next →
    (¬ Loose g id ∧ done taken next) ∨
      ∃ less children middle, fuel = less + 1 ∧ Loose g id ∧ ListsChildren g id children ∧
        Visits (visit less) children state middle ∧
        (done (taken ∪ looseUnder g children) middle → done (taken ∪ looseBelow g id) next)

/-- A visit takes all that can be changed at the vertex and below it. -/
theorem Forest.visit_takes (forest : Forest g roots) {done : Set Id → State → Prop}
    (takes : Takes g visit done) (fuel : Nat) :
    ∀ {id taken state next}, done taken state → (∀ last ∈ taken, ¬ Reach g id last) →
      visit fuel id state next → done (taken ∪ looseBelow g id) next := by
  induction fuel with
  | zero =>
      intro id taken state next holds apart visited
      rcases takes _ id taken state next holds (fun member => apart id member .refl) visited with ⟨frozen, after⟩ | ⟨_, _, _, impossible, _⟩
      · rwa [forest.looseBelow_frozen frozen, Set.union_empty]
      · cases impossible
  | succ fuel ih =>
      intro id taken state next holds apart visited
      rcases takes _ id taken state next holds (fun member => apart id member .refl) visited with
        ⟨frozen, after⟩ | ⟨less, children, middle, same, loose, lists, visits, last⟩
      · rwa [forest.looseBelow_frozen frozen, Set.union_empty]
      · obtain rfl : fuel = less := by omega
        refine last ?_
        -- a vertex that can be changed is below one child only
        have each (rest : List (Name × Id)) : ∀ {taken state}, rest <:+ children → done taken state →
            (∀ child ∈ rest, ∀ last ∈ taken, ¬ Reach g child.2 last) → Visits (visit fuel) rest state middle →
            done (taken ∪ looseUnder g rest) middle := by
          induction rest with
          | nil =>
              intro taken state _ holds _ visits
              cases visits
              have none : looseUnder g ([] : List (Name × Id)) = ∅ :=
                Set.eq_empty_of_forall_notMem fun _ ⟨_, _, impossible, _⟩ => List.not_mem_nil impossible
              rwa [none, Set.union_empty]
          | cons first rest inner =>
              intro taken state suffix holds apart visits
              cases visits with
              | @cons name child _ _ between _ one others =>
                  have after := ih holds (apart (name, child) List.mem_cons_self) one
                  rw [looseUnder_cons, ← Set.union_assoc]
                  refine inner ((List.suffix_cons _ _).trans suffix) after ?_ others
                  rintro ⟨name', other⟩ member last (old | ⟨isLoose, reach⟩) reach'
                  · exact apart (name', other) (List.mem_cons_of_mem _ member) last old reach'
                  · have edge := lists.mem.mp (suffix.subset List.mem_cons_self)
                    have edge' := lists.mem.mp (suffix.subset (List.mem_cons_of_mem _ member))
                    obtain rfl := forest.branch_unique isLoose edge edge' reach reach'
                    have nodup := lists.nodup.sublist (suffix.sublist.map Prod.fst)
                    exact (List.nodup_cons.mp nodup).1 (List.mem_map.mpr ⟨_, member, rfl⟩)
        refine each children (List.suffix_refl _) holds (fun child member last isTaken reach => ?_) visits
        exact apart last isTaken (.head ⟨child.1, lists.mem.mp member⟩ reach)

end Visiting

end SharedTrees
