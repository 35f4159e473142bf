/-
This file models a sequence of trees, and drafts that are made from them and may become the next ones.
-/

import Subversion.Lib.SharedTrees

namespace VersionedTrees

open SharedTrees

/-- The trees that are done, and those that are worked on. -/
structure Versions (Name Label : Type) where
  done : List (Tree Name Label)
  drafts : Nat → Option (Tree Name Label)

inductive Action (Name Label : Type) where
  | stay
  | start (draft version : Nat)
  | edit (draft : Nat) (names : List Name) (change : Tree Name Label → Tree Name Label)
  | rebase (draft version : Nat)
  | publish (draft : Nat)
  | discard (draft : Nat)

variable {Name Label : Type}

def Versions.setDraft (versions : Versions Name Label) (draft : Nat) (tree : Option (Tree Name Label)) :
    Versions Name Label := { versions with drafts := Function.update versions.drafts draft tree }

theorem setDraft_this (versions : Versions Name Label) (draft : Nat) (tree : Option (Tree Name Label)) :
    (versions.setDraft draft tree).drafts draft = tree := Function.update_self _ _ _

theorem setDraft_other (versions : Versions Name Label) {draft other : Nat} (distinct : other ≠ draft)
    (tree : Option (Tree Name Label)) : (versions.setDraft draft tree).drafts other = versions.drafts other :=
  Function.update_of_ne distinct _ _

variable [DecidableEq Name]

/-- A draft is started where there is none, and only what is there is edited. -/
def Versions.act (versions : Versions Name Label) : Action Name Label → Option (Versions Name Label)
  | .stay => some versions
  | .start draft version =>
      match versions.drafts draft with
      | some _ => none
      | none => do
          let tree ← versions.done[version]?
          pure (versions.setDraft draft (some tree))
  | .edit draft names change => do
      let tree ← versions.drafts draft
      let _ ← tree.follow names
      pure (versions.setDraft draft (some (tree.modify change names)))
  | .rebase draft version => do
      let _ ← versions.drafts draft
      let tree ← versions.done[version]?
      pure (versions.setDraft draft (some tree))
  | .publish draft => do
      let tree ← versions.drafts draft
      pure { versions.setDraft draft none with done := versions.done ++ [tree] }
  | .discard draft => do
      let _ ← versions.drafts draft
      pure (versions.setDraft draft none)

/-- The draft that is worked on. -/
def Action.draft : Action Name Label → Option Nat
  | .stay => none
  | .start draft _ | .edit draft _ _ | .rebase draft _ | .publish draft | .discard draft => some draft

abbrev Versions.Run : Versions Name Label → Versions Name Label → Prop :=
  Relation.ReflTransGen fun versions next => ∃ action, versions.act action = some next

variable {versions next : Versions Name Label} {action : Action Name Label}

/-- What is done stays, and the other drafts stay. -/
theorem act_stays (acted : versions.act action = some next) :
    versions.done <+: next.done ∧ ∀ other, action.draft ≠ some other → next.drafts other = versions.drafts other := by
  have other {draft other : Nat} (distinct : some draft ≠ some other) : other ≠ draft := fun same =>
    distinct (congrArg some same.symm)
  cases action with
  | stay =>
      cases acted
      exact ⟨List.prefix_refl _, fun _ _ => rfl⟩
  | start draft version =>
      rw [Versions.act] at acted
      split at acted
      · cases acted
      · simp only [Option.bind_eq_bind, Option.bind_eq_some_iff] at acted
        obtain ⟨tree, -, same⟩ := acted
        cases same
        exact ⟨List.prefix_refl _, fun _ distinct => setDraft_other _ (other distinct) _⟩
  | edit draft names change =>
      simp only [Versions.act, Option.bind_eq_bind, Option.bind_eq_some_iff] at acted
      obtain ⟨tree, -, _, -, same⟩ := acted
      cases same
      exact ⟨List.prefix_refl _, fun _ distinct => setDraft_other _ (other distinct) _⟩
  | rebase draft version =>
      simp only [Versions.act, Option.bind_eq_bind, Option.bind_eq_some_iff] at acted
      obtain ⟨_, -, tree, -, same⟩ := acted
      cases same
      exact ⟨List.prefix_refl _, fun _ distinct => setDraft_other _ (other distinct) _⟩
  | publish draft =>
      simp only [Versions.act, Option.bind_eq_bind, Option.bind_eq_some_iff] at acted
      obtain ⟨tree, -, same⟩ := acted
      cases same
      exact ⟨List.prefix_append _ _, fun _ distinct => setDraft_other _ (other distinct) _⟩
  | discard draft =>
      simp only [Versions.act, Option.bind_eq_bind, Option.bind_eq_some_iff] at acted
      obtain ⟨_, -, same⟩ := acted
      cases same
      exact ⟨List.prefix_refl _, fun _ distinct => setDraft_other _ (other distinct) _⟩

theorem Versions.Run.done (run : versions.Run next) : versions.done <+: next.done := by
  induction run with
  | refl => exact List.prefix_refl _
  | tail _ step ih =>
      obtain ⟨action, acted⟩ := step
      exact ih.trans (act_stays acted).1

end VersionedTrees
