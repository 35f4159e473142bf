/-
This file measures distances in forests that are given by the parents of their nodes.
-/

import Mathlib.Combinatorics.SimpleGraph.Metric
import Mathlib.Logic.Relation

namespace ParentTrees

variable {V : Type} {parent : V → Option V} {depth : V → Nat}

/-- The first node is reached from the second one by going to the parent any number of times. -/
def Ancestor (parent : V → Option V) (older younger : V) : Prop :=
  Relation.ReflTransGen (fun child found => parent child = some found) younger older

/-- Each node is joined to its parent. -/
def forest (parent : V → Option V) : SimpleGraph V :=
  SimpleGraph.fromRel fun child found => parent child = some found

/-- The parent of a node is one step nearer to the root. -/
def Ranked (parent : V → Option V) (depth : V → Nat) : Prop :=
  ∀ child found, parent child = some found → depth child = depth found + 1

theorem iterate_none (steps : Nat) :
    (fun found : Option V => found.bind parent)^[steps] none = none := by
  induction steps with
  | zero => rfl
  | succ steps ih =>
      rw [Function.iterate_succ_apply]
      exact ih

theorem ancestor_iff_iterate (older younger : V) :
    Ancestor parent older younger ↔
      ∃ steps, (fun found => found.bind parent)^[steps] (some younger) = some older := by
  constructor
  · intro ancestor
    induction ancestor with
    | refl => exact ⟨0, rfl⟩
    | tail _ step ih =>
        obtain ⟨steps, reached⟩ := ih
        refine ⟨steps + 1, ?_⟩
        rw [Function.iterate_succ_apply', reached]
        exact step
  · rintro ⟨steps, reached⟩
    induction steps generalizing younger with
    | zero =>
        cases reached
        exact Relation.ReflTransGen.refl
    | succ steps ih =>
        rw [Function.iterate_succ_apply] at reached
        cases found : parent younger with
        | none =>
            have start : (some younger).bind parent = none := found
            rw [start, iterate_none] at reached
            cases reached
        | some next =>
            have start : (some younger).bind parent = some next := found
            rw [start] at reached
            exact (ih next reached).head found

theorem Ranked.adj (ranked : Ranked parent depth) {child found : V}
    (step : parent child = some found) : (forest parent).Adj child found := by
  refine (SimpleGraph.fromRel_adj _ _ _).mpr ⟨?_, Or.inl step⟩
  rintro rfl
  have impossible := ranked _ _ step
  omega

/-- The way up to an ancestor takes as many steps as it goes up. -/
theorem Ranked.exists_walk (ranked : Ranked parent depth) {older younger : V}
    (ancestor : Ancestor parent older younger) :
    ∃ walk : (forest parent).Walk younger older, walk.length + depth older = depth younger := by
  induction ancestor with
  | refl => exact ⟨SimpleGraph.Walk.nil, Nat.zero_add _⟩
  | tail _ step ih =>
      obtain ⟨walk, length⟩ := ih
      have next := ranked _ _ step
      refine ⟨walk.concat (ranked.adj step), ?_⟩
      rw [SimpleGraph.Walk.length_concat]
      omega

/-- A walk is at least as long as the ways from its ends to some common ancestor. The induction
goes along the walk, and a step up from the common ancestor takes it along. -/
theorem Ranked.exists_common (ranked : Ranked parent depth) {first second : V}
    (walk : (forest parent).Walk first second) :
    ∃ common, Ancestor parent common first ∧ Ancestor parent common second ∧
      depth first + depth second ≤ walk.length + 2 * depth common := by
  induction walk with
  | nil => exact ⟨_, Relation.ReflTransGen.refl, Relation.ReflTransGen.refl, by simp; omega⟩
  | @cons first next second joined walk ih =>
      obtain ⟨common, below, beyond, short⟩ := ih
      rw [SimpleGraph.Walk.length_cons]
      rcases (SimpleGraph.fromRel_adj _ _ _).mp joined with ⟨-, up | down⟩
      · have rank := ranked _ _ up
        exact ⟨common, below.head up, beyond, by omega⟩
      · have rank := ranked _ _ down
        rcases Relation.ReflTransGen.cases_head below with rfl | ⟨middle, step, rest⟩
        · exact ⟨first, Relation.ReflTransGen.refl, beyond.tail down, by omega⟩
        · have same : middle = first := Option.some.inj (step.symm.trans down)
          exact ⟨common, same ▸ rest, beyond, by omega⟩

theorem Ranked.reachable_iff (ranked : Ranked parent depth) (first second : V) :
    (forest parent).Reachable first second ↔
      ∃ common, Ancestor parent common first ∧ Ancestor parent common second := by
  constructor
  · rintro ⟨walk⟩
    obtain ⟨common, below, beyond, -⟩ := ranked.exists_common walk
    exact ⟨common, below, beyond⟩
  · rintro ⟨common, below, beyond⟩
    obtain ⟨up, -⟩ := ranked.exists_walk below
    obtain ⟨down, -⟩ := ranked.exists_walk beyond
    exact ⟨up.append down.reverse⟩

/-- The shortest walk goes through the deepest common ancestor. -/
theorem Ranked.dist_eq (ranked : Ranked parent depth) {meet first second : V}
    (below : Ancestor parent meet first) (beyond : Ancestor parent meet second)
    (deepest : ∀ common, Ancestor parent common first → Ancestor parent common second →
      depth common ≤ depth meet) :
    (forest parent).Reachable first second ∧
      (forest parent).dist first second + 2 * depth meet = depth first + depth second := by
  have joined := (ranked.reachable_iff first second).mpr ⟨meet, below, beyond⟩
  refine ⟨joined, ?_⟩
  obtain ⟨up, upLength⟩ := ranked.exists_walk below
  obtain ⟨down, downLength⟩ := ranked.exists_walk beyond
  have atMost := SimpleGraph.dist_le (up.append down.reverse)
  rw [SimpleGraph.Walk.length_append, SimpleGraph.Walk.length_reverse] at atMost
  obtain ⟨shortest, length⟩ := joined.exists_walk_length_eq_dist
  obtain ⟨common, first', second', short⟩ := ranked.exists_common shortest
  have high := deepest common first' second'
  omega

end ParentTrees
