/-
This file shows which operations leave the contents of immutable representations alone.
-/

import Subversion.Fs.Deltification

namespace Subversion.Fs

open Budget Framing Delta Svndiff

/-- The rep is present and does not carry the mutable flag. -/
def Immutable (store : Store) (key : Nat) : Prop :=
  ∃ rep, store.reps key = some rep ∧ rep.mutable = false

def Mutable (store : Store) (key : Nat) : Prop :=
  ∃ rep, store.reps key = some rep ∧ rep.mutable = true

/-- The text of an immutable rep is built from this rep. -/
def Supports (store : Store) (key : Nat) : Prop :=
  ∃ other, Immutable store other ∧ Relation.ReflTransGen (DeltaBase store) other key

/-- The operation writes to no immutable fulltext, changes no text behind an immutable rep, and
closes no cycle of delta bases. -/
def Sparing (store : Store) : RepOp → Prop
  | .write key _ => (∀ strKey, store.reps key ≠ some (fulltextRep false strKey)) ∧
      (Mutable store key → ¬ Supports store key)
  | .clear key => Mutable store key → ¬ Supports store key
  | .deleteIfMutable key => Mutable store key → ¬ Supports store key
  | .deltify target source => ¬ Relation.ReflTransGen (DeltaBase store) source target
  | _ => True

/-- The size and the contents of one rep are the same in both stores. -/
def SameContentsAt (store next : Store) (key : Nat) : Prop :=
  repContentsSize next key = repContentsSize store key ∧
    ∀ result, Returns SvnError.stackExhausted (fun depth => repContents next depth key) result ↔
      Returns SvnError.stackExhausted (fun depth => repContents store depth key) result

/-- The tables after an operation. A failed one is rolled back. -/
def storeAfter (store : Store) : Except SvnError Store → Store
  | .ok next => next
  | .error _ => store

/-- Delta bases are keys that the table handed out. -/
def BasesKnown (store : Store) : Prop := ∀ key base, DeltaBase store key base → base < store.nextRep

section Steps

variable {store next : Store} {depth key : Nat}

theorem SameContentsAt.refl (store : Store) (key : Nat) : SameContentsAt store store key :=
  ⟨rfl, fun _ => Iff.rfl⟩

theorem SameContentsAt.trans {last : Store} (first : SameContentsAt store next key)
    (second : SameContentsAt next last key) : SameContentsAt store last key :=
  ⟨second.1.trans first.1, fun result => (second.2 result).trans (first.2 result)⟩

theorem sameContentsAt_of_reads (sizes : repContentsSize next key = repContentsSize store key)
    (reads : ∀ depth offset len,
      repReadRange next depth key offset len = repReadRange store depth key offset len) :
    SameContentsAt store next key := by
  have contents : (fun depth => repContents next depth key) =
      fun depth => repContents store depth key := by
    funext depth
    simp only [repContents, sizes, reads]
  refine ⟨sizes, fun result => ?_⟩
  rw [contents]

/-- A rep that is not built from the replaced one keeps its contents. -/
theorem RepsInvariant.sameContentsAt_frame (invariant : RepsInvariant store)
    (after : RepsInvariant next) {changed : Nat} {rep : Option Rep}
    (replaces : Replaces store next changed rep)
    (avoids : ¬ Relation.ReflTransGen (DeltaBase store) key changed) :
    SameContentsAt store next key := by
  have agree : ∀ key, key ≠ changed → AgreeAt store next key := fun key => replaces.agreeAt
  have distinct : key ≠ changed := by
    rintro rfl
    exact avoids Relation.ReflTransGen.refl
  apply sameContentsAt_of_reads (agree key distinct).sizes
  intro depth offset len
  exact invariant.read_frame after agree depth key avoids offset len

/-- Reading does not look at the mutable flag. -/
theorem repReadRange_kind (strings : next.strings = store.strings)
    (kinds : ∀ key, (next.reps key).map Rep.kind = (store.reps key).map Rep.kind) (depth : Nat) :
    ∀ key offset len,
      repReadRange next depth key offset len = repReadRange store depth key offset len := by
  induction depth with
  | zero => exact fun _ _ _ => rfl
  | succ depth ih =>
      intro key offset len
      have reader : repReadRange next depth = repReadRange store depth := by
        funext key offset len
        exact ih key offset len
      have kind := kinds key
      rw [repReadRange, repReadRange, reader]
      unfold readLevel readRep
      cases found : store.reps key with
      | none =>
          rw [found] at kind
          rw [Option.map_eq_none_iff.mp kind]
      | some rep =>
          rw [found] at kind
          obtain ⟨other, isNext, same⟩ := Option.map_eq_some_iff.mp kind
          simp only [isNext, same, strings]

theorem repContentsSize_kind (strings : next.strings = store.strings)
    (kind : (next.reps key).map Rep.kind = (store.reps key).map Rep.kind) :
    repContentsSize next key = repContentsSize store key := by
  unfold repContentsSize readRep
  cases found : store.reps key with
  | none =>
      rw [found] at kind
      rw [Option.map_eq_none_iff.mp kind]
  | some rep =>
      rw [found] at kind
      obtain ⟨other, isNext, same⟩ := Option.map_eq_some_iff.mp kind
      simp only [isNext, same, strings]

theorem BasesKnown.replace (known : BasesKnown store) {changed : Nat} {rep : Option Rep}
    (replaces : Replaces store next changed rep)
    (new : ∀ found windows, rep = some found → found.kind = .delta windows →
      ∀ entry ∈ windows, entry.base < store.nextRep) : BasesKnown next := by
  rintro key base ⟨found, windows, entry, stored, kind, member, rfl⟩
  apply lt_of_lt_of_le _ replaces.nextRep
  by_cases same : key = changed
  · subst same
    rw [replaces.this] at stored
    exact new found windows stored kind entry member
  · rw [replaces.other same] at stored
    exact known key entry.base ⟨found, windows, entry, stored, kind, member, rfl⟩

theorem BasesKnown.replace_fulltext (known : BasesKnown store) {rep : Rep} {strKey : StrKey}
    (kind : rep.kind = .fulltext strKey) {changed : Nat}
    (replaces : Replaces store next changed (some rep)) : BasesKnown next := by
  apply known.replace replaces
  rintro found windows ⟨⟩ isDelta
  rw [kind] at isDelta
  cases isDelta

theorem BasesKnown.step (known : BasesKnown store) (invariant : RepsInvariant store) {op : RepOp}
    (ran : runRepOp store depth op = .ok next) : BasesKnown next := by
  cases op with
  | getMutable rep =>
      simp only [Fs.runRepOp] at ran
      cases got : getMutableRep store depth rep with
      | error error => rw [got] at ran; cases ran
      | ok result =>
          rw [got] at ran
          cases ran
          rcases invariant.getMutableRep_replaces got with
            ⟨-, same, -⟩ | ⟨-, -, strKey, bytes, replaces, -⟩
          · rw [same]
            exact known
          · exact known.replace_fulltext rfl replaces
  | makeImmutable rep =>
      obtain ⟨old, found, -, -, replaces⟩ := invariant.makeRepImmutable_replaces ran
      apply known.replace replaces
      rintro _ windows ⟨⟩ kind entry member
      exact known rep entry.base ⟨old, windows, entry, found, kind, member, rfl⟩
  | deleteIfMutable rep =>
      obtain ⟨old, -, -, ⟨-, same⟩ | ⟨-, replaces⟩⟩ := invariant.deleteRepIfMutable_replaces ran
      · rw [same]
        exact known
      · exact known.replace replaces (by simp)
  | write rep bytes =>
      obtain ⟨old, strKey, -, kind, -, replaces, -⟩ := invariant.repWrite_replaces ran
      exact known.replace_fulltext kind replaces
  | clear rep =>
      obtain ⟨old, strKey, -, -, kind, -, replaces, -⟩ := invariant.repContentsClear_replaces ran
      exact known.replace_fulltext kind replaces
  | deltify target source =>
      obtain ⟨nextRep, ⟨reps, -⟩ | ⟨sourceText, targetText, entry, window, deltified⟩⟩ :=
        invariant.repDeltify_effect ran
      · intro key base isBase
        rw [nextRep]
        unfold DeltaBase at isBase
        rw [reps] at isBase
        exact known key base isBase
      · apply known.replace deltified.replaces
        rintro _ windows ⟨⟩ ⟨⟩ other member
        rw [List.mem_singleton] at member
        obtain ⟨less, found, -, stored⟩ := repReadRange_ok (deltified.sourceServes 0 0)
        rw [member, deltified.base]
        exact invariant.in_range stored
  | undeltify rep =>
      obtain ⟨-, same | ⟨text, strKey, -, -, -, replaces⟩⟩ := invariant.repUndeltify_effect ran
      · rw [same]
        exact known
      · exact known.replace_fulltext rfl replaces

theorem RepsReachable.basesKnown (reachable : RepsReachable store) : BasesKnown store := by
  induction reachable with
  | empty =>
      rintro key base ⟨rep, windows, entry, stored, -⟩
      cases stored
  | step earlier ran ih => exact ih.step earlier.invariant ran

/-- No chain of bases ends at a key that was not handed out. -/
theorem BasesKnown.avoids_new (known : BasesKnown store) (small : key < store.nextRep) :
    ¬ Relation.ReflTransGen (DeltaBase store) key store.nextRep := by
  intro reaches
  rcases Relation.ReflTransGen.cases_tail reaches with same | ⟨last, -, isBase⟩
  · omega
  · have := known last store.nextRep isBase
    omega

theorem Immutable.replace (immutable : Immutable store key) {changed : Nat} {rep : Option Rep}
    (replaces : Replaces store next changed rep)
    (new : key = changed → ∃ found, rep = some found ∧ found.mutable = false) :
    Immutable next key := by
  by_cases same : key = changed
  · subst same
    obtain ⟨found, rfl, flag⟩ := new rfl
    exact ⟨found, replaces.this, flag⟩
  · obtain ⟨found, stored, flag⟩ := immutable
    exact ⟨found, (replaces.other same).trans stored, flag⟩

/-- A mutable rep that supports no immutable one may be replaced. -/
theorem RepsInvariant.spared (invariant : RepsInvariant store) (after : RepsInvariant next)
    {changed : Nat} {rep : Option Rep} (replaces : Replaces store next changed rep)
    (isMutable : Mutable store changed) (unsupporting : ¬ Supports store changed)
    (immutable : Immutable store key) :
    Immutable next key ∧ SameContentsAt store next key := by
  have avoids : ¬ Relation.ReflTransGen (DeltaBase store) key changed :=
    fun reaches => unsupporting ⟨key, immutable, reaches⟩
  refine ⟨immutable.replace replaces ?_, invariant.sameContentsAt_frame after replaces avoids⟩
  rintro rfl
  exact absurd Relation.ReflTransGen.refl avoids

theorem RepsInvariant.makeRepImmutable_spares (invariant : RepsInvariant store) {changed : Nat}
    (made : makeRepImmutable store changed = .ok next) (immutable : Immutable store key) :
    Immutable next key ∧ SameContentsAt store next key := by
  obtain ⟨old, found, strings, -, replaces⟩ := invariant.makeRepImmutable_replaces made
  have kinds : ∀ other, (next.reps other).map Rep.kind = (store.reps other).map Rep.kind := by
    intro other
    by_cases same : other = changed
    · rw [same, replaces.this, found]
      rfl
    · rw [replaces.other same]
  refine ⟨immutable.replace replaces fun _ => ⟨_, rfl, rfl⟩, ?_⟩
  exact sameContentsAt_of_reads (repContentsSize_kind strings (kinds key)) fun depth =>
    repReadRange_kind strings kinds depth key

/-- A sparing operation leaves every immutable rep immutable and its contents alone. -/
theorem RepsReachable.spares (reachable : RepsReachable store) {op : RepOp}
    (sparing : Sparing store op) (ran : runRepOp store depth op = .ok next)
    (immutable : Immutable store key) :
    Immutable next key ∧ SameContentsAt store next key := by
  have invariant := reachable.invariant
  have after := invariant.runRepOp ran
  obtain ⟨deltifies, undeltifies⟩ := deltification_keeps_contents store reachable
  cases op with
  | getMutable rep =>
      simp only [runRepOp] at ran
      cases got : getMutableRep store depth rep with
      | error error => rw [got] at ran; cases ran
      | ok result =>
          rw [got] at ran
          cases ran
          rcases invariant.getMutableRep_replaces got with
            ⟨-, same, -⟩ | ⟨isNew, -, strKey, bytes, replaces, -⟩
          · rw [same]
            exact ⟨immutable, SameContentsAt.refl store key⟩
          · rw [isNew] at replaces
            have small : key < store.nextRep := by
              obtain ⟨found, stored, -⟩ := immutable
              exact invariant.in_range stored
            refine ⟨immutable.replace replaces fun same => by omega, ?_⟩
            exact invariant.sameContentsAt_frame after replaces
              (reachable.basesKnown.avoids_new small)
  | makeImmutable rep => exact invariant.makeRepImmutable_spares ran immutable
  | deleteIfMutable rep =>
      obtain ⟨old, found, -, ⟨-, same⟩ | ⟨flag, replaces⟩⟩ :=
        invariant.deleteRepIfMutable_replaces ran
      · rw [same]
        exact ⟨immutable, SameContentsAt.refl store key⟩
      · exact invariant.spared after replaces ⟨old, found, flag⟩ (sparing ⟨old, found, flag⟩)
          immutable
  | write rep bytes =>
      obtain ⟨old, strKey, found, kind, -, replaces, -⟩ := invariant.repWrite_replaces ran
      have flag : old.mutable = true := by
        by_contra notMutable
        rw [Bool.not_eq_true] at notMutable
        apply sparing.1 strKey
        rw [found, fulltextRep, ← kind, ← notMutable]
      exact invariant.spared after replaces ⟨old, found, flag⟩ (sparing.2 ⟨old, found, flag⟩)
        immutable
  | clear rep =>
      obtain ⟨old, strKey, found, flag, -, -, replaces, -⟩ :=
        invariant.repContentsClear_replaces ran
      exact invariant.spared after replaces ⟨old, found, flag⟩ (sparing ⟨old, found, flag⟩)
        immutable
  | deltify target source =>
      have distinct : target ≠ source := by
        rintro rfl
        exact sparing Relation.ReflTransGen.refl
      refine ⟨?_, deltifies depth target source next distinct sparing ran key⟩
      obtain ⟨-, ⟨reps, -⟩ | ⟨sourceText, targetText, entry, window, deltified⟩⟩ :=
        invariant.repDeltify_effect ran
      · unfold Immutable
        rw [reps]
        exact immutable
      · exact immutable.replace deltified.replaces fun _ => ⟨_, rfl, rfl⟩
  | undeltify rep =>
      refine ⟨?_, undeltifies depth rep next ran key⟩
      obtain ⟨-, same | ⟨text, strKey, -, -, -, replaces⟩⟩ := invariant.repUndeltify_effect ran
      · rw [same]
        exact immutable
      · exact immutable.replace replaces fun _ => ⟨_, rfl, rfl⟩

/-- A clear of an immutable rep fails, and so does a write to an immutable delta. -/
theorem Immutable.refuses (immutable : Immutable store key) {op : RepOp}
    (directed : op = .clear key ∨ ∃ bytes, op = .write key bytes) (sparing : Sparing store op) :
    ∃ error, runRepOp store depth op = .error error := by
  obtain ⟨rep, found, flag⟩ := immutable
  rcases directed with rfl | ⟨bytes, rfl⟩
  · simp [runRepOp, repContentsClear, readRep, found, flag]
  · obtain ⟨isMutable, kind⟩ := rep
    cases flag
    cases kind with
    | fulltext strKey => exact absurd found (sparing.1 strKey)
    | delta windows => simp [runRepOp, repWrite, readRep, found]

/-- A mutable rep that no delta names as its base supports no immutable rep. -/
theorem RepsInvariant.not_supports (invariant : RepsInvariant store) {rep : Rep}
    (found : store.reps key = some rep) (flag : rep.mutable = true)
    (noBase : ∀ other < store.nextRep, (store.reps other).all (fun rep =>
      match rep.kind with
      | .fulltext _ => true
      | .delta windows => windows.all fun entry => entry.base ≠ key) = true) :
    ¬ Supports store key := by
  rintro ⟨other, ⟨immutable, stored, unset⟩, reaches⟩
  rcases Relation.ReflTransGen.cases_tail reaches with rfl | ⟨last, -, isBase⟩
  · rw [found] at stored
    cases stored
    rw [flag] at unset
    cases unset
  · obtain ⟨delta, windows, entry, present, kind, member, base⟩ := isBase
    have all := noBase last (invariant.in_range present)
    rw [present, Option.all_some, kind] at all
    have distinct := List.all_eq_true.mp all entry member
    simp [base] at distinct

end Steps

/-- In every sparing run, an immutable rep keeps its contents, and writes and clears of it fail. -/
theorem immutable_reps_never_change (start last : Store) (reachable : RepsReachable start)
    (run : Relation.ReflTransGen (AllowedStep Sparing) start last) (key : Nat)
    (immutable : Immutable start key) :
    Immutable last key ∧ SameContentsAt start last key ∧
      ∀ depth op, (op = .clear key ∨ ∃ bytes, op = .write key bytes) → Sparing last op →
        (∃ error, runRepOp last depth op = .error error) ∧
          storeAfter last (runRepOp last depth op) = last := by
  have kept : Immutable last key ∧ SameContentsAt start last key := by
    induction run with
    | refl => exact ⟨immutable, SameContentsAt.refl start key⟩
    | tail earlier step ih =>
        obtain ⟨depth, op, sparing, ran⟩ := step
        obtain ⟨still, same⟩ := ih
        obtain ⟨next, contents⟩ := (reachable.run earlier).spares sparing ran still
        exact ⟨next, same.trans contents⟩
  refine ⟨kept.1, kept.2, fun depth op directed sparing => ?_⟩
  obtain ⟨error, failed⟩ := kept.1.refuses directed sparing
  exact ⟨⟨error, failed⟩, by rw [failed]; rfl⟩

/-- A delta keeps its contents while a copy of it is written, and no write to it succeeds. -/
theorem immutable_reps_never_change_copied :
    let start := (repDeltify deltifiedStore 3 1 0).toOption.getD emptyStore
    let middle := (runRepOp start 3 (.getMutable (some 1))).toOption.getD emptyStore
    let last := (runRepOp middle 3 (.write 3 [9])).toOption.getD emptyStore
    Immutable last 1 ∧ SameContentsAt start last 1 ∧
      (∃ error, runRepOp last 3 (.write 1 [9]) = .error error) := by
  intro start middle last
  have reachable : RepsReachable start :=
    (runRepOps_reachable _ RepsReachable.empty (eq_ok_getD emptyStore (by decide +kernel))).step
      (eq_ok_getD emptyStore (show (runRepOp deltifiedStore 3 (.deltify 1 0)).toOption.isSome = true
        by decide +kernel))
  have immutable : Immutable start 1 :=
    ⟨⟨false, .delta [⟨0, 31, some 4, 0⟩]⟩, by decide +kernel, rfl⟩
  have copied : runRepOp start 3 (.getMutable (some 1)) = .ok middle :=
    eq_ok_getD emptyStore (by decide +kernel)
  have copy : middle.reps 3 = some (fulltextRep true (some 5)) := by decide +kernel
  have sparing : Sparing middle (.write 3 [9]) := by
    refine ⟨by simp [copy, fulltextRep], fun _ => ?_⟩
    exact (reachable.step copied).invariant.not_supports copy rfl (by decide +kernel)
  have first : AllowedStep Sparing start middle := ⟨3, .getMutable (some 1), trivial, copied⟩
  have second : AllowedStep Sparing middle last :=
    ⟨3, .write 3 [9], sparing, eq_ok_getD emptyStore (by decide +kernel)⟩
  have isDelta : last.reps 1 = some ⟨false, .delta [⟨0, 31, some 4, 0⟩]⟩ := by decide +kernel
  obtain ⟨still, same, refused⟩ := immutable_reps_never_change start last reachable
    ((Relation.ReflTransGen.single first).tail second) 1 immutable
  refine ⟨still, same, (refused 3 (.write 1 [9]) (Or.inr ⟨[9], rfl⟩) ?_).1⟩
  refine ⟨by simp [isDelta, fulltextRep], ?_⟩
  rintro ⟨rep, found, flag⟩
  rw [isDelta] at found
  cases found
  cases flag

/-- A write to an immutable fulltext succeeds and changes its contents. -/
theorem write_changes_an_immutable_rep :
    let store := (runRepOps 1 emptyStore [.getMutable none, .makeImmutable 0]).toOption.getD
      emptyStore
    let next := (runRepOp store 1 (.write 0 [1])).toOption.getD emptyStore
    RepsReachable store ∧ Immutable store 0 ∧ runRepOp store 1 (.write 0 [1]) = .ok next ∧
      repContents store 1 0 = .ok [] ∧ repContents next 1 0 = .ok [1] := by
  intro store next
  refine ⟨?_, ⟨fulltextRep false (some 0), by decide, rfl⟩, ?_, by decide,
    by decide⟩
  · exact runRepOps_reachable _ RepsReachable.empty (eq_ok_getD emptyStore (by decide))
  · exact eq_ok_getD emptyStore (by decide)

end Subversion.Fs
