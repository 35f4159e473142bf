/-
This file shows which operations keep the text of an immutable representation.
-/

import Subversion.Fs.FileReps
import Subversion.Fs.Legibility
import Subversion.Fs.FileTexts

namespace Subversion.Fs

open Framing Transactions

/-- The rep is not written to, and is not built from a delta made without care. -/
def Spares (store : Store) (key : Nat) : RepOp → Prop
  | .write rep _ => Mutable store rep
  | .deltify target source => Relation.ReflTransGen (DeltaBase store) key target →
      Immutable store source ∧ (∃ text, Legible store source text) ∧
        ¬ Relation.ReflTransGen (DeltaBase store) source target
  | _ => True

section Operations

variable {store next : Store} {depth key : Nat} {text : Delta.Bytes}

/-- A legible delta is built from an immutable rep, so no mutable rep is behind it. -/
theorem Legible.replace_mutable (legible : Legible store key text) (immutable : Immutable store key)
    {changed : Nat} (mutable : Mutable store changed) {rep : Option Rep}
    (replaces : Replaces store next changed rep) : Legible next key text := by
  obtain ⟨old, found, flag⟩ := mutable
  have loose := not_immutable found flag
  refine legible.carry (fun other => replaces.agreeAt) (fun isImmutable => absurd isImmutable loose) ?_
  rintro rfl
  exact loose immutable

/-- The text of a rep that is built from the target is built again from its delta. -/
theorem Legible.deltified (legible : Legible store key text) (invariant : RepsInvariant store)
    {target source : Nat} {sourceText targetText : Delta.Bytes} {entry : DeltaWindow}
    {window : Delta.TxdeltaWindow} (spares : Spares store key (.deltify target source))
    (effect : Deltified store next depth target source sourceText targetText entry window) :
    Legible next key text := by
  have replaces := effect.replaces
  have agree (other : Nat) (different : other ≠ target) : AgreeAt store next other :=
    replaces.agreeAt different
  by_cases reaches : Relation.ReflTransGen (DeltaBase store) key target
  · obtain ⟨immutable, ⟨other, isOther⟩, avoids⟩ := spares reaches
    have distinct : source ≠ target := by
      rintro rfl
      exact avoids Relation.ReflTransGen.refl
    have baseLegible : Legible next source sourceText := by
      obtain rfl := isOther.unique invariant effect.sourceServes
      exact isOther.carry agree (fun _ reaches => absurd reaches avoids) distinct
    have targetLegible : Legible next target targetText := by
      refine .delta replaces.this rfl effect.good ?_ ?_ effect.applied effect.size
      · rw [effect.base]
        exact immutable.replace replaces fun same => absurd same distinct
      · rw [effect.base]
        exact baseLegible
    by_cases same : key = target
    · subst same
      obtain rfl := legible.unique invariant effect.targetServes
      exact targetLegible
    · refine legible.carry agree (fun _ _ text isText => ?_) same
      obtain rfl := isText.unique invariant effect.targetServes
      exact ⟨⟨_, replaces.this, rfl⟩, _, List.prefix_rfl, targetLegible⟩
  · refine legible.carry agree (fun _ isReached => absurd isReached reaches) ?_
    rintro rfl
    exact reaches Relation.ReflTransGen.refl

/-- A sparing operation keeps the text of an immutable rep. -/
theorem Legible.kept (legible : Legible store key text) (invariant : RepsInvariant store)
    (immutable : Immutable store key) {op : RepOp} (spares : Spares store key op)
    (ran : runRepOp store depth op = .ok next) : Legible next key text := by
  have small : key < store.nextRep := by
    obtain ⟨rep, found, -⟩ := immutable
    exact invariant.in_range found
  cases op with
  | getMutable rep =>
      simp only [runRepOp] at ran
      cases got : getMutableRep store depth rep with
      | error error => rw [got] at ran; cases ran
      | ok result =>
          rw [got] at ran
          cases ran
          rcases invariant.getMutableRep_replaces got with ⟨-, same, -⟩ | ⟨isNew, -, strKey, bytes, replaces, -⟩
          · rw [same]
            exact legible
          · refine legible.carry (fun other => replaces.agreeAt) ?_ (by omega)
            rintro ⟨other, isOther, -⟩
            exact absurd (invariant.in_range isOther) (by omega)
  | makeImmutable rep =>
      obtain ⟨old, found, -, -, replaces⟩ := invariant.makeRepImmutable_replaces ran
      cases flag : old.mutable with
      | false =>
          simp only [runRepOp, makeRepImmutable, readRep, found, flag, Bool.false_eq_true, if_false] at ran
          cases ran
          exact legible
      | true => exact legible.replace_mutable immutable ⟨old, found, flag⟩ replaces
  | deleteIfMutable rep =>
      obtain ⟨old, found, -, ⟨-, same⟩ | ⟨flag, replaces⟩⟩ := invariant.deleteRepIfMutable_replaces ran
      · rw [same]
        exact legible
      · exact legible.replace_mutable immutable ⟨old, found, flag⟩ replaces
  | write rep bytes =>
      obtain ⟨old, -, -, -, -, replaces, -⟩ := invariant.repWrite_replaces ran
      exact legible.replace_mutable immutable spares replaces
  | clear rep =>
      obtain ⟨old, -, found, flag, -, -, replaces, -⟩ := invariant.repContentsClear_replaces ran
      exact legible.replace_mutable immutable ⟨old, found, flag⟩ replaces
  | deltify target source =>
      obtain ⟨-, ⟨reps, grows⟩ | ⟨sourceText, targetText, entry, window, effect⟩⟩ :=
        invariant.repDeltify_effect ran
      · have agree (other : Nat) : AgreeAt store next other :=
          ⟨by rw [reps], fun rep found strKey member => invariant.grown_kept grows found member⟩
        refine @Legible.carry store next key store.nextRep text legible (fun other _ => agree other) ?_
          (by omega)
        rintro ⟨other, isOther, -⟩
        exact absurd (invariant.in_range isOther) (lt_irrefl _)
      · exact legible.deltified invariant spares effect
  | undeltify rep =>
      obtain ⟨-, same | ⟨whole, strKey, serves, -, present, replaces⟩⟩ := invariant.repUndeltify_effect ran
      · rw [same]
        exact legible
      · have isWhole : Legible next rep whole := .fulltext replaces.this rfl present
        by_cases same : key = rep
        · subst same
          obtain rfl := legible.unique invariant serves
          exact isWhole
        · refine legible.carry (fun other => replaces.agreeAt) (fun _ _ other isOther => ?_) same
          obtain rfl := isOther.unique invariant serves
          exact ⟨⟨_, replaces.this, rfl⟩, _, List.prefix_rfl, isWhole⟩

theorem Legible.touched (legible : Legible store key text) (reachable : RepsReachable store)
    (immutable : Immutable store key) (touches : Touches (fun _ => False) store next) :
    Legible next key text := by
  induction touches with
  | refl => exact legible
  | tail earlier step ih =>
      obtain ⟨depth, op, quiet, ran⟩ := step
      have before := reachable.run earlier
      refine ih.kept before.invariant (immutable.touches reachable earlier) ?_ ran
      cases op with
      | write rep bytes => exact quiet.resolve_right id
      | deltify target source => exact quiet.elim
      | _ => trivial

end Operations

/-- Streams write to mutable reps, and nothing is deltified against a mutable node. -/
structure Prudent (risky : Filesystem → Risk → Prop) : Prop where
  write : ∀ fs key, risky fs (.write key) → Mutable fs.store key
  deltify : ∀ fs source, ¬ risky fs (.deltify source)

/-- The reps of files can be read. -/
def FilesLegible (files : Set Nat) (store : Store) : Prop :=
  ∀ key ∈ files, ∀ rep, store.reps key = some rep → ∃ text, Legible store key text

section Files

variable {risky : Filesystem → Risk → Prop} {fs next : Filesystem} {files : Set Nat}

theorem FileReps.increasing (reps : FileReps files fs) {key later : Nat} (member : key ∈ files)
    (reaches : Relation.ReflTransGen (DeltaBase fs.store) key later) : later ∈ files ∧ key ≤ later := by
  induction reaches with
  | refl => exact ⟨member, le_rfl⟩
  | tail _ isBase ih =>
      obtain ⟨listed, less⟩ := reps.ordered _ ih.1 _ isBase
      exact ⟨listed, ih.2.trans less.le⟩

/-- A prudent change keeps the text of every immutable rep of a file. -/
theorem Legible.carried (reps : FileReps files fs) (grounded : Grounded fs) (lined : Lined fs)
    (frozen : Frozen fs) (readable : FilesLegible files fs.store) (reachable : RepsReachable fs.store)
    (prudent : Prudent risky) (change : Change risky fs next) {key : Nat} {text : Delta.Bytes}
    (member : key ∈ files) (immutable : Immutable fs.store key) (legible : Legible fs.store key text) :
    Legible next.store key text := by
  rcases change.effect reachable with touches | ⟨rep, bytes, risk, wrote⟩ | ⟨target, source, deltifies⟩
  · exact legible.touched reachable immutable touches
  · exact @Legible.kept _ _ 0 key text legible reachable.invariant immutable (.write rep bytes)
      (prudent.write fs rep risk) wrote
  · obtain ⟨depth, deltified⟩ := deltifies.deltified
    refine @Legible.kept _ _ depth key text legible reachable.invariant immutable (.deltify target source)
      (fun reaches => ?_) deltified
    obtain ⟨listed, -⟩ := reps.increasing member reaches
    obtain ⟨isFile, less, _, _, other, newer, -, -, -, isNewer, named, committed⟩ :=
      reps.deltified grounded lined deltifies listed
    have done : newer.rev ≠ none := committed.resolve_right (prudent.deltify fs other)
    have frozenBase := (frozen other newer isNewer done).2 source named
    obtain ⟨rep, found, flag⟩ := frozenBase
    refine ⟨⟨rep, found, flag⟩, readable source isFile rep found, fun back => ?_⟩
    have := (reps.increasing isFile back).2
    omega

/-- What can be read stays so, and what is new is a fulltext. -/
theorem FilesLegible.step (readable : FilesLegible files fs.store) (reps : FileReps files fs)
    (grounded : Grounded fs) (lined : Lined fs) (frozen : Frozen fs) (reachable : RepsReachable fs.store)
    (prudent : Prudent risky) (change : Change risky fs next) {more : Set Nat}
    (extends' : Extends fs files more) : FilesLegible more next.store := by
  intro key member rep found
  have after := change.reps reachable
  cases kind : rep.kind with
  | fulltext strKey =>
      obtain ⟨text, present⟩ := after.stored key rep strKey found kind
      exact ⟨text, .fulltext found kind present⟩
  | delta windows =>
      obtain ⟨-, entry, window, rfl, -⟩ := after.invariant.single key rep windows found kind
      have isBase : DeltaBase next.store key entry.base :=
        ⟨rep, [entry], entry, found, kind, List.mem_singleton_self _, rfl⟩
      -- it was a delta before, or it was a rep of a committed file
      have immutable : key ∈ files ∧ Immutable fs.store key := by
        have listed (small : key < fs.store.nextRep) : key ∈ files := extends'.2 key member small
        have delta (isBase : DeltaBase fs.store key entry.base) : key ∈ files ∧ Immutable fs.store key := by
          obtain ⟨old, others, other, isOld, isDelta, -⟩ := isBase
          exact ⟨listed (reachable.invariant.in_range isOld), old, isOld,
            (reachable.invariant.single key old others isOld isDelta).1⟩
        rcases change.touches reachable with touches | ⟨target, source, deltifies⟩
        · exact delta ((touches.bases reachable).2 _ _ isBase)
        · obtain ⟨depth, deltified⟩ := deltifies.deltified
          rcases (repDeltify_bases reachable.invariant deltified).2 _ _ isBase with earlier | ⟨rfl, -⟩
          · exact delta earlier
          · have small : key < fs.store.nextRep := by
              rw [← (repDeltify_bases reachable.invariant deltified).1]
              exact after.invariant.in_range found
            obtain ⟨-, -, _, older, _, _, isOlder, committed, named, -⟩ :=
              reps.deltified grounded lined deltifies (listed small)
            exact ⟨listed small, (frozen _ older isOlder committed).2 key named⟩
      obtain ⟨old, isOld, flag⟩ := immutable.2
      obtain ⟨text, legible⟩ := readable key immutable.1 old isOld
      exact ⟨text, Legible.carried reps grounded lined frozen readable reachable prudent change immutable.1
        immutable.2 legible⟩

end Files

end Subversion.Fs
